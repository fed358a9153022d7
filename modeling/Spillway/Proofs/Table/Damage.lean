import Spillway.Proofs.Checksum
import Spillway.Proofs.Table.RoundTrip

/-!
# Damaged table files

A file that differs from one that a writer completed is not opened when the damage lies within four
bytes in a row of the entries, in the magic bytes and the version, or in the stored checksum
(`Table.damaged_is_refused`). The checksum of the entries tells damage to them and to itself from the
file that was written, whatever the entries and their number.
-/

namespace Spillway

/-! ## Bytes that differ in places -/

namespace Bytes

/-- The bytes are as many but others, and the same outside of the places from `lo` to `hi`. -/
structure DifferWithin (lo hi : Nat) (bytes damaged : Bytes) : Prop where
  length_eq : damaged.length = bytes.length
  ne : damaged ≠ bytes
  same : ∀ i, i < lo ∨ hi ≤ i → damaged[i]? = bytes[i]?

variable {lo hi start stop : Nat} {front block back bytes damaged : Bytes}

/-- A difference within the second of three parts leaves the other two. -/
theorem DifferWithin.within (h : DifferWithin start stop bytes damaged)
    (hbytes : bytes = front ++ (block ++ back)) (hstart : start = front.length + lo)
    (hstop : stop = front.length + hi) (hhi : hi ≤ block.length) :
    ∃ block', damaged = front ++ (block' ++ back) ∧ DifferWithin lo hi block block' := by
  subst hbytes hstart hstop
  have hlength := h.length_eq
  simp only [List.length_append] at hlength
  have hfront : damaged.take front.length = front := by
    apply List.ext_getElem?
    intro i
    rw [List.getElem?_take]
    split
    · next hi => rw [h.same i (by omega), List.getElem?_append_left hi]
    · next hi => exact (List.getElem?_eq_none (Nat.not_lt.1 hi)).symm
  have hback : (damaged.drop front.length).drop block.length = back := by
    apply List.ext_getElem?
    intro i
    rw [List.drop_drop, List.getElem?_drop, h.same _ (by omega), ← List.append_assoc,
      List.getElem?_append_right (by rw [List.length_append]; omega), List.length_append,
      Nat.add_sub_cancel_left]
  have hparts : damaged = front ++ ((damaged.drop front.length).take block.length ++ back) := by
    conv => lhs; rw [← List.take_append_drop front.length damaged, hfront]
    conv => lhs; rw [← List.take_append_drop block.length (damaged.drop front.length), hback]
  refine ⟨(damaged.drop front.length).take block.length, hparts, ?_, ?_, ?_⟩
  · rw [List.length_take, List.length_drop]
    omega
  · intro heq
    rw [heq] at hparts
    exact h.ne hparts
  · intro i hi
    rw [List.getElem?_take]
    split
    · next hin =>
      rw [List.getElem?_drop, h.same _ (by omega), List.getElem?_append_right (by omega),
        Nat.add_sub_cancel_left, List.getElem?_append_left hin]
    · next hin => exact (List.getElem?_eq_none (Nat.not_lt.1 hin)).symm

/-- The bytes that differ, between those that do not. -/
theorem DifferWithin.exists_window (h : DifferWithin lo hi bytes damaged) (hlo : lo ≤ hi)
    (hhi : hi ≤ bytes.length) :
    ∃ front old new back, bytes = front ++ old ++ back ∧ damaged = front ++ new ++ back ∧
      old.length = hi - lo ∧ old.length = new.length ∧ old ≠ new := by
  have hbytes : bytes = bytes.take lo ++ ((bytes.drop lo).take (hi - lo) ++ bytes.drop hi) := by
    conv => lhs; rw [← List.take_append_drop lo bytes]
    conv => lhs; rw [← List.take_append_drop (hi - lo) (bytes.drop lo), List.drop_drop]
    rw [Nat.add_sub_cancel' hlo]
  have hold : ((bytes.drop lo).take (hi - lo)).length = hi - lo := by
    rw [List.length_take, List.length_drop]
    omega
  have hfront : (bytes.take lo).length = lo := by
    rw [List.length_take]
    omega
  generalize (bytes.drop lo).take (hi - lo) = old at hbytes hold
  generalize bytes.take lo = front at hbytes hfront
  generalize bytes.drop hi = back at hbytes
  have hlo' : lo = front.length + 0 := hfront.symm
  have hhi' : hi = front.length + (hi - lo) := by omega
  obtain ⟨new, hdamaged, hnew⟩ := h.within hbytes hlo' hhi' (Nat.le_of_eq hold.symm)
  refine ⟨front, old, new, back, ?_, ?_, hold, hnew.length_eq.symm, hnew.ne.symm⟩
  · rw [hbytes, List.append_assoc]
  · rw [hdamaged, List.append_assoc]

end Bytes

namespace Table

open Bytes

namespace Writer

variable {w : Writer} {entries : List Entry}

/-- Offers an entry. A writer goes on without the entries that it refuses. -/
def offer (w : Writer) (entry : Entry) : Writer :=
  match w.add entry with
  | .ok w' => w'
  | .error _ => w

def offerAll (w : Writer) (offered : List Entry) : Writer := offered.foldl offer w

/-- An entry that is not out of order comes after all entries so far. -/
theorem Wrote.sorted_concat (h : w.Wrote entries) (hs : KeyMap.Sorted entries) {entry : Entry}
    (horder : w.outOfOrder entry.1 = false) : KeyMap.Sorted (entries ++ [entry]) := by
  refine List.pairwise_append.2 ⟨hs, List.pairwise_singleton _ _, ?_⟩
  intro e he last hlast
  obtain rfl := List.mem_singleton.1 hlast
  have hgreatest := List.getLast?_eq_some_getLast (List.ne_nil_of_mem he)
  have hlast' := h.map_fst_last
  rw [hgreatest] at hlast'
  obtain ⟨sample, hsample, hkey⟩ := Option.map_eq_some_iff.1 hlast'
  rw [outOfOrder, hsample] at horder
  have hlt : sample.1 < last.1 := Std.not_le.1 (of_decide_eq_false horder)
  rw [hkey] at hlt
  exact Std.lt_of_le_of_lt (hs.le_getLast? he hgreatest) hlt

theorem Wrote.offer (h : w.Wrote entries) (hs : KeyMap.Sorted entries) (entry : Entry) :
    ∃ accepted, (w.offer entry).Wrote accepted ∧ KeyMap.Sorted accepted ∧
      (w.offer entry).path = w.path ∧ (w.offer entry).file = w.file := by
  by_cases hfit : Fits entry
  · cases horder : w.outOfOrder entry.1 with
    | true =>
      have hrefused : w.add entry = .error (.keysOutOfOrder w.path) := by
        rw [Writer.add, if_neg (Nat.not_lt.2 hfit), horder, if_pos rfl]
      rw [Writer.offer, hrefused]
      exact ⟨entries, h, hs, rfl, rfl⟩
    | false =>
      have hs' := h.sorted_concat hs horder
      obtain ⟨w', hadd, hpath, hfile, -, hw'⟩ := h.add hfit hs'
      rw [Writer.offer, hadd]
      exact ⟨entries ++ [entry], hw', hs', hpath, hfile⟩
  · have hrefused : w.add entry = .error (.entryTooLong (longest entry) w.path) := by
      rw [Writer.add, if_pos (Nat.not_le.1 hfit)]
    rw [Writer.offer, hrefused]
    exact ⟨entries, h, hs, rfl, rfl⟩

/-- Whatever is offered to a writer, it wrote sorted entries. -/
theorem Wrote.offerAll (h : w.Wrote entries) (hs : KeyMap.Sorted entries) (offered : List Entry) :
    ∃ accepted, (w.offerAll offered).Wrote accepted ∧ KeyMap.Sorted accepted ∧
      (w.offerAll offered).path = w.path ∧ (w.offerAll offered).file = w.file := by
  induction offered generalizing w entries with
  | nil => exact ⟨entries, h, hs, rfl, rfl⟩
  | cons entry offered ih =>
    obtain ⟨accepted, hw, hs', hpath, hfile⟩ := h.offer hs entry
    obtain ⟨all, hw', hs'', hpath', hfile'⟩ := ih hw hs'
    exact ⟨all, hw', hs'', hpath'.trans hpath, hfile'.trans hfile⟩

/-- The file of the writer is damaged within four bytes in a row of its entries, in the magic bytes
and the version, or in the stored checksum. -/
def Damages (w : Writer) (damaged : Bytes) : Prop :=
  (∃ start, headerSize ≤ start ∧ start + 4 ≤ headerSize + w.data.length ∧
    DifferWithin start (start + 4) w.image damaged) ∨
  DifferWithin 0 6 w.image damaged ∨
  DifferWithin (w.image.length - 8) (w.image.length - 4) w.image damaged

end Writer

namespace Outline

variable {data index count interval damaged : Bytes}

/-- A file that a writer completes, in parts. -/
def sealed (count data index interval : Bytes) : Bytes :=
  assemble magic (LittleEndian.encode 2 version) count data index
    (LittleEndian.encode 4 (Checksum.ofBytes data).toNat) interval

variable (path : Path) (hcount : count.length = 8) (hinterval : interval.length = 4)
  (hplace : headerSize + data.length ≤ Disk.maxFileBytes)

include hcount hinterval hplace

/-- Other entries within four bytes in a row have another checksum. -/
theorem ofBytes_damaged_data {start : Nat} (hstart : headerSize ≤ start)
    (hstop : start + 4 ≤ headerSize + data.length)
    (h : DifferWithin start (start + 4) (sealed count data index interval) damaged) :
    ∃ actual, ofBytes path damaged =
      .error (.checksumMismatch path (Checksum.ofBytes data) actual) := by
  obtain ⟨k, rfl⟩ := Nat.exists_eq_add_of_le hstart
  have hhead : (magic ++ (LittleEndian.encode 2 version ++ count)).length = headerSize := by
    simp [hcount, magic, headerSize]
  have hgroup : sealed count data index interval =
      (magic ++ (LittleEndian.encode 2 version ++ count)) ++ (data ++ (index ++
        (LittleEndian.encode 8 (headerSize + data.length) ++
          (LittleEndian.encode 4 (Checksum.ofBytes data).toNat ++ interval)))) := by
    simp only [sealed, assemble, List.append_assoc]
  obtain ⟨data', rfl, hdata⟩ := h.within hgroup (show headerSize + k = _ + k by rw [hhead])
    (show headerSize + k + 4 = _ + (k + 4) by rw [hhead, Nat.add_assoc]) (by omega)
  have hsame : data'.length = data.length := hdata.length_eq
  have hactual : Checksum.ofBytes data' ≠ Checksum.ofBytes data := by
    obtain ⟨front, old, new, back, rfl, rfl, hfour, hlength, hne⟩ :=
      hdata.exists_window (by omega) (by omega)
    intro heq
    exact hne (Checksum.ofBytes_window (by omega) (by omega) heq).symm
  have hdamaged : (magic ++ (LittleEndian.encode 2 version ++ count)) ++ (data' ++ (index ++
      (LittleEndian.encode 8 (headerSize + data.length) ++
        (LittleEndian.encode 4 (Checksum.ofBytes data).toNat ++ interval)))) =
      assemble magic (LittleEndian.encode 2 version) count data' index
        (LittleEndian.encode 4 (Checksum.ofBytes data).toNat) interval := by
    simp only [assemble, hsame, List.append_assoc]
  refine ⟨Checksum.ofBytes data', ?_⟩
  rw [hdamaged, ofBytes_assemble path rfl (LittleEndian.length_encode ..) hcount
    (LittleEndian.length_encode ..) hinterval (by omega), decode_encode_checksum, if_neg (by simp),
    if_neg (by simp; rfl), if_pos hactual]

/-- Other magic bytes or another version are told apart. -/
theorem ofBytes_damaged_header (h : DifferWithin 0 6 (sealed count data index interval) damaged) :
    ∃ cause, ofBytes path damaged = .error cause := by
  have hgroup : sealed count data index interval =
      [] ++ ((magic ++ LittleEndian.encode 2 version) ++ (count ++ (data ++ (index ++
        (LittleEndian.encode 8 (headerSize + data.length) ++
          (LittleEndian.encode 4 (Checksum.ofBytes data).toNat ++ interval)))))) := by
    simp only [sealed, assemble, List.append_assoc, List.nil_append]
  obtain ⟨front, rfl, hfront⟩ := h.within hgroup (show 0 = 0 + 0 from rfl) (show 6 = 0 + 6 from rfl)
    (by decide)
  have hsix : front.length = 6 := hfront.length_eq
  have hdamaged : [] ++ (front ++ (count ++ (data ++ (index ++
      (LittleEndian.encode 8 (headerSize + data.length) ++
        (LittleEndian.encode 4 (Checksum.ofBytes data).toNat ++ interval)))))) =
      assemble (front.take 4) (front.drop 4) count data index
        (LittleEndian.encode 4 (Checksum.ofBytes data).toNat) interval := by
    rw [assemble, ← List.append_assoc (front.take 4), List.take_append_drop, List.nil_append]
  rw [hdamaged, ofBytes_assemble path (by simp [hsix]) (by simp [hsix]) hcount
    (LittleEndian.length_encode ..) hinterval hplace]
  by_cases hmagic : front.take 4 = magic
  · have hversion : LittleEndian.decode (front.drop 4) ≠ version := by
      intro hdecode
      have hdrop : front.drop 4 = LittleEndian.encode 2 version := by
        have hencode := LittleEndian.encode_decode (front.drop 4)
        rw [hdecode, List.length_drop, hsix] at hencode
        exact hencode.symm
      apply hfront.ne
      rw [← List.take_append_drop 4 front, hmagic, hdrop]
    rw [if_neg (not_not.2 hmagic), if_pos hversion]
    exact ⟨_, rfl⟩
  · rw [if_pos hmagic]
    exact ⟨_, rfl⟩

/-- Another stored checksum is not that of the entries. -/
theorem ofBytes_damaged_checksum {size : Nat}
    (hsize : size = (sealed count data index interval).length)
    (h : DifferWithin (size - 8) (size - 4) (sealed count data index interval) damaged) :
    ∃ expected, ofBytes path damaged =
      .error (.checksumMismatch path expected (Checksum.ofBytes data)) := by
  generalize hhead : magic ++ (LittleEndian.encode 2 version ++ (count ++ (data ++ (index ++
    LittleEndian.encode 8 (headerSize + data.length))))) = head
  have hgroup : ∀ checksum : Bytes, assemble magic (LittleEndian.encode 2 version) count data index
      checksum interval = head ++ (checksum ++ interval) := by
    intro checksum
    simp only [← hhead, assemble, List.append_assoc]
  have hlength : size = head.length + 8 := by
    rw [hsize, sealed, hgroup]
    simp [hinterval]
  obtain ⟨stored, rfl, hstored⟩ := h.within (hgroup _) (show size - 8 = head.length + 0 by omega)
    (show size - 4 = head.length + 4 by omega) (by simp)
  have hfour : stored.length = 4 := by rw [hstored.length_eq, LittleEndian.length_encode]
  have hactual : Checksum.ofBytes data ≠ UInt32.ofNat (LittleEndian.decode stored) := by
    intro heq
    apply hstored.ne
    have hlt : LittleEndian.decode stored < 4294967296 := by
      have := LittleEndian.decode_lt stored
      rwa [hfour] at this
    rw [heq, UInt32.toNat_ofNat_of_lt' hlt, ← hfour, LittleEndian.encode_decode]
  refine ⟨UInt32.ofNat (LittleEndian.decode stored), ?_⟩
  rw [← hgroup, ofBytes_assemble path rfl (LittleEndian.length_encode ..) hcount hfour hinterval hplace,
    if_neg (by simp), if_neg (by simp; rfl), if_pos hactual]

end Outline

section Load

variable {d : Disk} {path : Path} {place : Location} {w : Writer} {entries : List Entry}
  {damaged : Bytes}

/-- Damage to the file of a writer is found when the file is checked. -/
theorem Writer.Damages.ofBytes (h : w.Damages damaged) (hw : w.Wrote entries)
    (hsmall : w.image.length ≤ Disk.maxFileBytes) (path : Path) :
    ∃ cause, Outline.ofBytes path damaged = .error cause := by
  have himage : w.image = Outline.sealed (LittleEndian.encode 8 entries.length) w.data
      ((sampled w.interval (placed headerSize entries)).flatMap sampleBytes)
      (LittleEndian.encode 4 w.interval) := by
    rw [hw.image, Outline.layout_eq_assemble, ← hw.data, Outline.sealed]
  have hplace : headerSize + w.data.length ≤ Disk.maxFileBytes := by
    rw [hw.image, length_layout, ← hw.data] at hsmall
    omega
  rcases h with ⟨start, hstart, hstop, hdata⟩ | hheader | hchecksum
  · rw [himage] at hdata
    obtain ⟨actual, hrefused⟩ := Outline.ofBytes_damaged_data path (LittleEndian.length_encode ..)
      (LittleEndian.length_encode ..) hplace hstart hstop hdata
    exact ⟨_, hrefused⟩
  · rw [himage] at hheader
    exact Outline.ofBytes_damaged_header path (LittleEndian.length_encode ..)
      (LittleEndian.length_encode ..) hplace hheader
  · rw [himage] at hchecksum
    obtain ⟨expected, hrefused⟩ := Outline.ofBytes_damaged_checksum path (LittleEndian.length_encode ..)
      (LittleEndian.length_encode ..) hplace rfl hchecksum
    exact ⟨_, hrefused⟩

/-- Opening a file whose bytes are refused fails with the cause. -/
theorem ends_load_refused {file : FileId} {cause : Corruption}
    (hfind : d.find path = .ok (place, .file file))
    (hrefused : Outline.ofBytes path (d.content file) = .error cause) :
    Ends (Reader.load path) d (fun _ _ => False)
      fun e _ => e = .corrupt cause ∨ Faulted d e := by
  unfold Reader.load
  refine Ends.bind ((ends_storage (Disk.ends_openFile hfind)).imp_fail fun _ _ he => .inr he.2) ?_
  rintro handle d' ⟨rfl, rfl⟩
  have hrefused' : Outline.ofBytes path (d.tick.content file) = .error cause := hrefused
  refine ends_get_bind ?_
  simp only [hrefused']
  exact Ends.throw (.inl rfl)

/-- The file that a writer completes, whatever entries were offered to it, is not opened again when
it is damaged, wherever the damaged file lies: opening it fails as corrupt, unless the disk fails
first. Only a fault of the disk keeps the writer from completing it, or that it is more than a file can
have. -/
theorem damaged_is_refused (hl : d.locate path = .ok place) (hw : d.Writable place) (interval : Nat)
    (offered : List Entry) :
    Ends (Writer.create path interval >>= fun w => (w.offerAll offered).finish) d
      (fun _ d₁ => d₁.faults <:+ d.faults ∧ ∃ file,
        let w : Writer := Writer.offerAll { path, file, interval := max interval 1 } offered
        d₁.find path = .ok (place, .file file) ∧ d₁.content file = w.image ∧
          ∀ damaged, w.Damages damaged → ∀ (d₂ : Disk) path₂ place₂ file₂,
            d₂.find path₂ = .ok (place₂, .file file₂) → d₂.content file₂ = damaged →
            Ends (Reader.load path₂) d₂ (fun _ _ => False)
              fun e _ => (∃ cause, e = .corrupt cause) ∨ Faulted d₂ e)
      fun e _ => Faulted d e ∨ ∃ file, Unwritable d
        (Writer.offerAll { path, file, interval := max interval 1 } offered).image e := by
  refine Ends.bind ((ends_create hl hw interval).imp_fail fun _ _ he => .inl he.2) ?_
  rintro _ d₁ ⟨file, rfl, hfind, hfile, hfaults⟩
  obtain ⟨entries, hwrote, hsorted, -, hkept⟩ :=
    (Writer.wrote_nil path file (max interval 1)).offerAll KeyMap.sorted_nil offered
  dsimp only
  generalize hcompleted :
    Writer.offerAll { path, file, interval := max interval 1 } offered = w at hwrote hkept
  unfold Writer.finish
  refine Ends.bind ((ends_writeImage w).imp_fail fun e _ he => .inr ⟨file, ?_⟩) ?_
  · rw [hcompleted]
    exact he.2.of_suffix hfaults
  rintro _ d₂ ⟨rfl, hsmall⟩
  refine Ends.pure ⟨(List.tail_suffix _).trans hfaults, file, ?_⟩
  simp only [hcompleted]
  refine ⟨?_, ?_, ?_⟩
  · rw [Disk.find_setContent, Disk.find_tick, hfind]
  · rw [hkept]
    exact Disk.content_setContent hfile _
  · rintro damaged hdamaged d₃ path₃ place₃ file₃ hfind₃ rfl
    obtain ⟨cause, hrefused⟩ := hdamaged.ofBytes hwrote hsmall path₃
    exact (ends_load_refused hfind₃ hrefused).imp_fail fun e _ he => he.imp_left fun h => ⟨cause, h⟩

/-- A table to which a key was offered out of order, with one byte of its entries changed. -/
theorem damaged_is_refused_refusing :
    ∃ summary d file, (Writer.create "t.sst" 2 >>= fun w =>
        (w.offerAll [([1], some [7]), ([0], none), ([2], none)]).finish) {} = .ok summary d ∧
      d.find "t.sst" = .ok (["t.sst"], .file file) ∧ ∃ cause d', Reader.load "t.sst"
        (d.setContent file ((d.content file).set 15 0xFF)) = .error (.corrupt cause) d' := by
  have hplace : ({} : Disk).locate "t.sst" = .ok ["t.sst"] := by decide +kernel
  have hwritable : ({} : Disk).Writable ["t.sst"] := fun node hnode => by cases hnode
  have hsmall : ∀ file : FileId, (Writer.offerAll { path := "t.sst", file, interval := max 2 1 }
      [([1], some [7]), ([0], none), ([2], none)]).image.length ≤ Disk.maxFileBytes := by
    intro file
    show 75 ≤ Disk.maxFileBytes
    decide
  obtain ⟨summary, d, hwritten, hfaults, file, hfind, hcontent, hrefused⟩ :=
    (damaged_is_refused hplace hwritable 2 [([1], some [7]), ([0], none), ([2], none)]).exists_ok
      fun e _ he => he.elim (not_faulted rfl) fun ⟨file, hfile⟩ => not_unwritable rfl (hsmall file) hfile
  have hbyte : (d.content file)[15]? = some 0 := by rw [hcontent]; rfl
  have hid : file < d.contents.length := by
    by_contra hnot
    rw [Disk.content, List.getElem?_eq_none (Nat.not_lt.1 hnot)] at hbyte
    cases hbyte
  have hchanged : (d.content file).set 15 0xFF ≠ d.content file := by
    intro heq
    obtain ⟨hin, -⟩ := List.getElem?_eq_some_iff.1 hbyte
    have hset := List.getElem?_set_self (a := 0xFF) hin
    rw [heq, hbyte] at hset
    exact absurd hset (by decide)
  have hopened : Ends (Reader.load "t.sst") (d.setContent file ((d.content file).set 15 0xFF))
      (fun _ _ => False) fun e _ => (∃ cause, e = .corrupt cause) ∨
        Faulted (d.setContent file ((d.content file).set 15 0xFF)) e := by
    have hset := Disk.content_setContent hid ((d.content file).set 15 0xFF)
    rw [hcontent] at hset hchanged ⊢
    refine hrefused _ (.inl ⟨14, Nat.le_refl _, ?_, List.length_set, hchanged, ?_⟩) _ _ _ _
      ((Disk.find_setContent ..).trans hfind) hset
    · show 14 + 4 ≤ 14 + 19
      decide
    · intro i hi
      exact List.getElem?_set_ne (by omega)
  obtain ⟨_, d', hload, ⟨cause, rfl⟩ | hfaulted⟩ := hopened.exists_error fun _ _ => id
  · exact ⟨summary, d, file, hwritten, hfind, cause, d', hload⟩
  · exact absurd hfaulted (not_faulted (List.suffix_nil.1 hfaults))

end Load

end Table

end Spillway
