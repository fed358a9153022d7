import Spillway.Bytes.EndianLaws
import Spillway.Proofs.Newest
import Spillway.Proofs.Table.Layout
import Spillway.Table.Reader

/-!
# Reading back what was written

The layout of sorted entries is accepted as a table file (`Outline.ofBytes_layout`), and looking a
key up in it gives what the entries say of the key (`Outline.find_layout`). The index only chooses
where the search starts, so all that matters of it is that it lists entries of the table with their
places, the first and the last among them.
-/

namespace Spillway.Table

variable {entries : List Entry} {key : Bytes}

/-! ## Words that fit -/

theorem decode_encode_length {n : Nat} (h : n ≤ deletionMark) :
    LittleEndian.decode (LittleEndian.encode 4 n) = n := by
  refine LittleEndian.decode_encode_of_lt ?_
  have : deletionMark = 4294967295 := rfl
  omega

theorem decode_encode_place {n : Nat} (h : n ≤ Disk.maxFileBytes) :
    LittleEndian.decode (LittleEndian.encode 8 n) = n := by
  refine LittleEndian.decode_encode_of_lt ?_
  have : Disk.maxFileBytes = 9223372036854775807 := rfl
  omega

theorem le_deletionMark {n : Nat} (h : n ≤ maxEntryBytes) : n ≤ deletionMark :=
  Nat.le_trans h (Nat.sub_le _ _)

namespace Outline

theorem take_encode_append (width n : Nat) (rest : Bytes) :
    (LittleEndian.encode width n ++ rest).take width = LittleEndian.encode width n :=
  List.take_left' (LittleEndian.length_encode width n)

theorem drop_encode_append (width n : Nat) (rest : Bytes) :
    (LittleEndian.encode width n ++ rest).drop width = rest :=
  List.drop_left' (LittleEndian.length_encode width n)

/-- The lengths in front of an entry are read back; the mark of a deletion is no length. -/
theorem lengths_encode {keyLength valueLength : Nat} (hk : keyLength ≤ maxEntryBytes)
    (hv : valueLength ≤ deletionMark) :
    lengths (LittleEndian.encode 4 keyLength ++ LittleEndian.encode 4 valueLength) =
      (keyLength, if valueLength = deletionMark then none else some valueLength) := by
  rw [lengths, take_encode_append, drop_encode_append, decode_encode_length hv,
    decode_encode_length (le_deletionMark hk)]

/-! ## The index -/

theorem parseIndex_nil (path : Path) : parseIndex path [] = .ok [] := by
  rw [parseIndex, if_pos rfl]

theorem parseIndex_cons (path : Path) {sample : Sample} (rest : Bytes)
    (hkey : sample.1.length ≤ maxEntryBytes) (hplace : sample.2 ≤ Disk.maxFileBytes) :
    parseIndex path (sampleBytes sample ++ rest) =
      match parseIndex path rest with
      | .ok samples => .ok (sample :: samples)
      | .error cause => .error cause := by
  have hsplit : Bytes.split? 12 (sampleBytes sample ++ rest) =
      some (LittleEndian.encode 4 sample.1.length ++ LittleEndian.encode 8 sample.2,
        sample.1 ++ rest) := by
    refine Bytes.split?_eq_some_iff.2 ⟨?_, ?_⟩
    · rw [sampleBytes, List.append_assoc]
    · simp only [List.length_append, LittleEndian.length_encode]
  have hne : sampleBytes sample ++ rest ≠ [] := by
    intro h
    have := congrArg List.length h
    rw [List.length_append, length_sampleBytes, List.length_nil] at this
    omega
  have hkeySplit : Bytes.split? sample.1.length (sample.1 ++ rest) = some (sample.1, rest) :=
    Bytes.split?_append
  have hlength : LittleEndian.decode ((LittleEndian.encode 4 sample.1.length ++
      LittleEndian.encode 8 sample.2).take 4) = sample.1.length := by
    rw [take_encode_append, decode_encode_length (le_deletionMark hkey)]
  have hoffset : LittleEndian.decode ((LittleEndian.encode 4 sample.1.length ++
      LittleEndian.encode 8 sample.2).drop 4) = sample.2 := by
    rw [drop_encode_append, decode_encode_place hplace]
  rw [parseIndex, if_neg hne]
  split
  · next h => rw [hsplit] at h; cases h
  · next head rest' h =>
    rw [hsplit] at h
    cases h
    split
    · next h => rw [hlength, hkeySplit] at h; cases h
    · next h =>
      rw [hlength, hkeySplit] at h
      cases h
      cases parseIndex path rest with
      | error cause => rfl
      | ok samples => exact congrArg (fun place => Except.ok ((sample.1, place) :: samples)) hoffset

theorem parseIndex_flatMap (path : Path) {samples : List Sample}
    (h : ∀ sample ∈ samples, sample.1.length ≤ maxEntryBytes ∧ sample.2 ≤ Disk.maxFileBytes) :
    parseIndex path (samples.flatMap sampleBytes) = .ok samples := by
  induction samples with
  | nil => exact parseIndex_nil path
  | cons sample samples ih =>
    rw [List.forall_mem_cons] at h
    rw [List.flatMap_cons, parseIndex_cons path _ h.1.1 h.1.2, ih h.2]

/-! ## The whole file -/

/-- What the layout of entries tells about the table. -/
def ofEntries (interval : Nat) (entries : List Entry) : Outline where
  entryCount := entries.length
  indexOffset := headerSize + (entries.flatMap entryBytes).length
  index := sampled interval (placed headerSize entries)
  fileSize := (layout interval entries).length

theorem length_le_flatMap_entryBytes (entries : List Entry) :
    entries.length ≤ (entries.flatMap entryBytes).length := by
  induction entries with
  | nil => exact Nat.zero_le _
  | cons entry entries ih =>
    rw [List.flatMap_cons, List.length_append, length_entryBytes, List.length_cons, entryHeaderSize]
    omega

theorem sample_fits {interval : Nat} (hfits : ∀ e ∈ entries, Fits e)
    (hsmall : (layout interval entries).length ≤ Disk.maxFileBytes) {sample : Sample}
    (h : sample ∈ sampled interval (placed headerSize entries)) :
    sample.1.length ≤ maxEntryBytes ∧ sample.2 ≤ Disk.maxFileBytes := by
  have hmem := mem_of_mem_sampled h
  have hlt := lt_of_mem_placed hmem
  obtain ⟨front, entry, back, rfl, rfl⟩ := mem_placed hmem
  rw [length_layout] at hsmall
  exact ⟨(hfits entry (List.mem_append_right _ List.mem_cons_self)).key, by omega⟩

/-- A file in its parts, whatever bytes stand for the magic ones, the version, the count, the checksum
and the interval. The index is where the footer says. -/
def assemble (found version count data index checksum interval : Bytes) : Bytes :=
  found ++ (version ++ (count ++ (data ++ (index ++
    (LittleEndian.encode 8 (headerSize + data.length) ++ (checksum ++ interval))))))

/-- The parts are checked one after the other. -/
theorem ofBytes_assemble (path : Path) {found version' count data index checksum interval : Bytes}
    (hfound : found.length = 4) (hversion : version'.length = 2) (hcount : count.length = 8)
    (hchecksum : checksum.length = 4) (hinterval : interval.length = 4)
    (hplace : headerSize + data.length ≤ Disk.maxFileBytes) :
    ofBytes path (assemble found version' count data index checksum interval) =
      if found ≠ magic then .error (.badMagic found)
      else if LittleEndian.decode version' ≠ version then
        .error (.badVersion (LittleEndian.decode version'))
      else if Checksum.ofBytes data ≠ UInt32.ofNat (LittleEndian.decode checksum) then
        .error (.checksumMismatch path (UInt32.ofNat (LittleEndian.decode checksum))
          (Checksum.ofBytes data))
      else
        (parseIndex path index).map fun samples => {
          entryCount := LittleEndian.decode count
          indexOffset := headerSize + data.length
          index := samples
          fileSize := (assemble found version' count data index checksum interval).length } := by
  generalize hbytes : assemble found version' count data index checksum interval = bytes
  have hlength : bytes.length = headerSize + data.length + index.length + footerSize := by
    rw [← hbytes]
    simp only [assemble, List.length_append, LittleEndian.length_encode, headerSize, footerSize]
    omega
  have hstop : bytes.length - footerSize = headerSize + data.length + index.length := by omega
  -- the file up to each of the places where it is read
  have htake4 : bytes.take 4 = found := by
    rw [← hbytes]
    exact List.take_left' hfound
  have hdrop4 : (bytes.drop 4).take 2 = version' := by
    rw [← hbytes, assemble, List.drop_left' hfound]
    exact List.take_left' hversion
  have hdrop6 : (bytes.drop 6).take 8 = count := by
    rw [← hbytes, assemble, ← List.append_assoc found, List.drop_left' (by simp [hfound, hversion])]
    exact List.take_left' hcount
  have hdrop14 : bytes.drop headerSize = data ++ (index ++
      (LittleEndian.encode 8 (headerSize + data.length) ++ (checksum ++ interval))) := by
    rw [← hbytes, assemble, ← List.append_assoc, ← List.append_assoc]
    apply List.drop_left'
    simp only [List.length_append, hfound, hversion, hcount, headerSize]
  have hblock : (bytes.take (headerSize + data.length)).drop headerSize = data := by
    rw [List.drop_take, hdrop14, Nat.add_sub_cancel_left]
    exact List.take_left' rfl
  have hindex : (bytes.take (bytes.length - footerSize)).drop (headerSize + data.length) = index := by
    rw [hstop, List.drop_take, ← List.drop_drop, hdrop14, List.drop_left' rfl,
      Nat.add_sub_cancel_left]
    exact List.take_left' rfl
  have hfoot : bytes.drop (bytes.length - footerSize) =
      LittleEndian.encode 8 (headerSize + data.length) ++ (checksum ++ interval) := by
    rw [hstop, ← List.drop_drop, ← List.drop_drop, hdrop14, List.drop_left' rfl, List.drop_left' rfl]
  have hexpected : (checksum ++ interval).take 4 = checksum := List.take_left' hchecksum
  unfold ofBytes
  simp only [hfoot, take_encode_append, drop_encode_append, decode_encode_place hplace, hexpected,
    htake4, hdrop4, hdrop6, hblock, hindex, Checksum.ofChunks_eq]
  have hsize : ¬ bytes.length < headerSize + footerSize := by omega
  have hinside : ¬ (headerSize + data.length < headerSize ∨
      bytes.length - footerSize < headerSize + data.length) := by omega
  rw [if_neg hsize, if_neg hinside]
  cases parseIndex path index <;> rfl

/-- The layout of entries in its parts. -/
theorem layout_eq_assemble (interval : Nat) (entries : List Entry) :
    layout interval entries = assemble magic (LittleEndian.encode 2 version)
      (LittleEndian.encode 8 entries.length) (entries.flatMap entryBytes)
      ((sampled interval (placed headerSize entries)).flatMap sampleBytes)
      (LittleEndian.encode 4 (Checksum.ofBytes (entries.flatMap entryBytes)).toNat)
      (LittleEndian.encode 4 interval) := by
  simp only [layout, header, footer, assemble, List.append_assoc]

theorem decode_encode_checksum (checksum : UInt32) :
    UInt32.ofNat (LittleEndian.decode (LittleEndian.encode 4 checksum.toNat)) = checksum := by
  rw [LittleEndian.decode_encode_of_lt (by have := checksum.toNat_lt; omega), UInt32.ofNat_toNat]

/-- A layout is accepted as a table file. -/
theorem ofBytes_layout (path : Path) (interval : Nat) (hfits : ∀ e ∈ entries, Fits e)
    (hsmall : (layout interval entries).length ≤ Disk.maxFileBytes) :
    ofBytes path (layout interval entries) = .ok (ofEntries interval entries) := by
  have hlength := length_layout interval entries
  have hcount := length_le_flatMap_entryBytes entries
  have hparse : parseIndex path ((sampled interval (placed headerSize entries)).flatMap sampleBytes) =
      .ok (sampled interval (placed headerSize entries)) :=
    parseIndex_flatMap path fun sample h => sample_fits hfits hsmall h
  have hplace : headerSize + (entries.flatMap entryBytes).length ≤ Disk.maxFileBytes := by omega
  have hversion : LittleEndian.decode (LittleEndian.encode 2 version) = version := rfl
  have hentries : LittleEndian.decode (LittleEndian.encode 8 entries.length) = entries.length :=
    decode_encode_place (by omega)
  rw [layout_eq_assemble, ofBytes_assemble path rfl (LittleEndian.length_encode ..)
    (LittleEndian.length_encode ..) (LittleEndian.length_encode ..) (LittleEndian.length_encode ..)
    hplace, ← layout_eq_assemble]
  simp [hversion, hentries, hparse, decode_encode_checksum, ofEntries, Except.map]

/-! ## Looking up -/

/-- What a lookup answers, given what the table says of the key. -/
def answer : Option (Option Bytes) → Except StorageError (Option Bytes)
  | some value => .ok value
  | none => .error .keyNotFound

theorem answer_injective {found found' : Option (Option Bytes)} (h : answer found = answer found') :
    found = found' := by
  cases found <;> cases found' <;> cases h <;> rfl

theorem entryBytes_eq (key : Bytes) (value : Option Bytes) :
    entryBytes (key, value) = LittleEndian.encode 4 key.length ++
      LittleEndian.encode 4 ((value.map List.length).getD deletionMark) ++
        (key ++ value.getD []) := by
  cases value with
  | none => rw [entryBytes, Option.getD_none, List.append_nil]; rfl
  | some value => rw [entryBytes, List.append_assoc _ key]; rfl

/-- The header of an entry, the key and the value follow each other. -/
theorem split?_entryBytes (key : Bytes) (value : Option Bytes) (rest : Bytes) :
    Bytes.split? entryHeaderSize (entryBytes (key, value) ++ rest) =
      some (LittleEndian.encode 4 key.length ++
        LittleEndian.encode 4 ((value.map List.length).getD deletionMark),
        key ++ (value.getD [] ++ rest)) := by
  refine Bytes.split?_eq_some_iff.2 ⟨?_, ?_⟩
  · rw [entryBytes_eq, List.append_assoc, List.append_assoc key]
  · simp only [List.length_append, LittleEndian.length_encode]
    rfl

theorem lengths_entry {key : Bytes} {value : Option Bytes} (h : Fits (key, value)) :
    lengths (LittleEndian.encode 4 key.length ++
      LittleEndian.encode 4 ((value.map List.length).getD deletionMark)) =
        (key.length, value.map List.length) := by
  cases value with
  | none =>
    rw [Option.map_none, Option.getD_none, lengths_encode h.key (Nat.le_refl _), if_pos rfl]
  | some value =>
    have hvalue : value.length < deletionMark := Nat.lt_succ_of_le h.value
    rw [Option.map_some, Option.getD_some, lengths_encode h.key (Nat.le_of_lt hvalue),
      if_neg (Nat.ne_of_lt hvalue)]

/-- Reading sorted entries one by one finds what they say of a key. -/
theorem search_flatMap (hs : KeyMap.Sorted entries) (hfits : ∀ e ∈ entries, Fits e)
    (offset : Nat) (rest : Bytes) :
    search key (offset + (entries.flatMap entryBytes).length) offset
      (entries.flatMap entryBytes ++ rest) = answer (KeyMap.find? entries key) := by
  induction entries generalizing offset with
  | nil =>
    rw [search, if_neg (by rw [List.flatMap_nil, List.length_nil]; omega)]
    rfl
  | cons entry entries ih =>
    obtain ⟨found, value⟩ := entry
    obtain ⟨hlt, hs⟩ := KeyMap.sorted_cons.1 hs
    rw [List.forall_mem_cons] at hfits
    have hlength := length_entryBytes (found, value)
    have hsplit := split?_entryBytes found value (entries.flatMap entryBytes ++ rest)
    rw [List.flatMap_cons, List.length_append, List.append_assoc, search,
      if_pos (by rw [hlength, entryHeaderSize]; omega), hsplit]
    simp only [lengths_entry hfits.1, Bytes.split?_append]
    rw [KeyMap.find?_cons]
    by_cases hfound : found = key
    · rw [if_pos hfound, if_pos hfound.symm]
      cases value with
      | none => rfl
      | some value =>
        simp only [Option.map_some, Option.getD_some, Bytes.split?_append]
        rfl
    · rw [if_neg hfound, if_neg (Ne.symm hfound)]
      by_cases hbefore : key < found
      · rw [if_pos hbefore, KeyMap.find?_eq_none_of_lt fun p hp => Std.lt_trans hbefore (hlt p hp)]
        rfl
      · have hdrop : (value.getD [] ++ (entries.flatMap entryBytes ++ rest)).drop
            ((value.map List.length).getD 0) = entries.flatMap entryBytes ++ rest := by
          refine List.drop_left' ?_
          cases value <;> rfl
        have hnext : offset + entryHeaderSize + found.length + (value.map List.length).getD 0 =
            offset + (entryBytes (found, value)).length := by
          rw [hlength, Memtable.footprint, ← Nat.add_assoc, ← Nat.add_assoc]
        rw [if_neg hbefore, hdrop, hnext, ← Nat.add_assoc]
        exact ih hs hfits.2 _

/-- Halving ends behind a position that passes the test, unless the first one fails it. -/
theorem bisect_spec (test : Nat → Bool) (base size : Nat) :
    (∃ i, bisect test base size = i + 1 ∧ test i = true) ∨
      bisect test base size = base ∧ (size = 0 ∨ test base = false) := by
  fun_induction bisect test base size with
  | case1 base => exact .inr ⟨rfl, .inl rfl⟩
  | case2 base htest => exact .inl ⟨base, rfl, htest⟩
  | case3 base htest => exact .inr ⟨rfl, .inr (Bool.eq_false_iff.2 htest)⟩
  | case4 base size hsize hone half ih =>
    rcases ih with hfound | ⟨hbase, hsmall | hfail⟩
    · exact .inl hfound
    · omega
    · by_cases htest : test (base + half) = true
      · rw [dif_pos htest] at hfail
        rw [htest] at hfail
        cases hfail
      · rw [dif_neg htest] at hbase hfail
        refine .inr ⟨?_, .inr hfail⟩
        rw [if_neg htest]
        exact hbase

variable {interval : Nat}

theorem minKey?_ofEntries :
    (ofEntries interval entries).minKey? = entries.head?.map Prod.fst := by
  rw [minKey?, ofEntries, head?_sampled, ← List.head?_map, map_fst_placed, List.head?_map]

theorem maxKey?_ofEntries :
    (ofEntries interval entries).maxKey? = entries.getLast?.map Prod.fst := by
  rw [maxKey?, ofEntries, getLast?_sampled, ← List.getLast?_map, map_fst_placed, List.getLast?_map]

/-- The index spans all keys: a key outside of its range is in no entry. -/
theorem mightContain_of_mem (hs : KeyMap.Sorted entries) {entry : Entry} (h : entry ∈ entries) :
    (ofEntries interval entries).mightContain entry.1 = true := by
  have hne := List.ne_nil_of_mem h
  have hhead := List.head?_eq_some_head hne
  have hlast := List.getLast?_eq_some_getLast hne
  rw [mightContain, minKey?_ofEntries, maxKey?_ofEntries, hhead, hlast]
  simp only [Option.map_some, Bool.and_eq_true, decide_eq_true_eq]
  exact ⟨hs.head?_le h hhead, hs.le_getLast? h hlast⟩

theorem find?_eq_none_of_mightContain (hs : KeyMap.Sorted entries)
    (h : (ofEntries interval entries).mightContain key = false) :
    KeyMap.find? entries key = none := by
  refine KeyMap.find?_eq_none_iff.2 fun entry hentry hkey => ?_
  subst hkey
  rw [mightContain_of_mem hs hentry] at h
  cases h

/-- The slot of a key in the range of the index has a sample before it that is not greater. -/
theorem slot_ofEntries (h : (ofEntries interval entries).mightContain key = true) :
    ∃ i sample, (ofEntries interval entries).slot key = i + 1 ∧
      (ofEntries interval entries).index[i]? = some sample ∧ sample.1 ≤ key := by
  rcases bisect_spec (fun i => (((ofEntries interval entries).index[i]?).map fun sample =>
    decide (sample.1 ≤ key)).getD false) 0 (ofEntries interval entries).index.length with
    ⟨i, hi, htest⟩ | ⟨-, hfirst⟩
  · cases hsample : (ofEntries interval entries).index[i]? with
    | none =>
      simp only [hsample] at htest
      cases htest
    | some sample =>
      simp only [hsample, Option.map_some, Option.getD_some, decide_eq_true_eq] at htest
      exact ⟨i, sample, hi, hsample, htest⟩
  · -- the first sample is in the range, so it passes the test
    exfalso
    unfold mightContain at h
    cases hindex : (ofEntries interval entries).index with
    | nil => rw [minKey?, hindex] at h; cases h
    | cons sample rest =>
      rw [minKey?, hindex] at h
      rw [hindex] at hfirst
      rcases hfirst with hempty | hfail
      · cases hempty
      · simp only [List.getElem?_cons_zero, Option.map_some, Option.getD_some,
          decide_eq_false_iff_not] at hfail
        cases hmax : (ofEntries interval entries).maxKey? with
        | none => rw [hmax] at h; cases h
        | some greatest =>
          rw [hmax] at h
          simp only [List.head?_cons, Option.map_some, Bool.and_eq_true, decide_eq_true_eq] at h
          exact hfail h.1

/-- A lookup in a table file answers what its entries say of the key. -/
theorem find_layout (hs : KeyMap.Sorted entries) (hfits : ∀ e ∈ entries, Fits e)
    (hsmall : (layout interval entries).length ≤ Disk.maxFileBytes) (key : Bytes) :
    (ofEntries interval entries).find (layout interval entries) key =
      answer (KeyMap.find? entries key) := by
  unfold find
  by_cases hrange : (ofEntries interval entries).mightContain key = true
  · obtain ⟨i, sample, hslot, hsample, hle⟩ := slot_ofEntries hrange
    rw [if_pos hrange, hslot]
    simp only [hsample]
    obtain ⟨front, entry, back, rfl, rfl⟩ :=
      mem_placed (mem_of_mem_sampled (List.mem_of_getElem? hsample))
    have hlength := length_layout interval (front ++ entry :: back)
    rw [List.flatMap_append, List.length_append] at hlength
    have hreach : ¬ offsetLimit ≤ headerSize + (front.flatMap entryBytes).length := by
      have : Disk.maxFileBytes + 1 = offsetLimit := rfl
      omega
    -- the entries from the sampled one on, then the index and the end of the file
    obtain ⟨rest, hrest⟩ : ∃ rest, (layout interval (front ++ entry :: back)).drop
        (headerSize + (front.flatMap entryBytes).length) =
          (entry :: back).flatMap entryBytes ++ rest := by
      rw [layout, List.flatMap_append, List.append_assoc, List.append_assoc, List.append_assoc,
        ← List.append_assoc (header _)]
      exact ⟨_, List.drop_left' (by rw [List.length_append, length_header])⟩
    have hstop : (ofEntries interval (front ++ entry :: back)).indexOffset = headerSize +
        (front.flatMap entryBytes).length + ((entry :: back).flatMap entryBytes).length := by
      simp only [ofEntries, List.flatMap_append, List.length_append, Nat.add_assoc]
    obtain ⟨-, hback, hcross⟩ := List.pairwise_append.1 hs
    have hfront : KeyMap.find? front key = none :=
      KeyMap.find?_eq_none_iff.2 fun p hp => Std.ne_of_lt
        (Std.lt_of_lt_of_le (hcross p hp entry List.mem_cons_self) hle)
    rw [if_neg hreach, hrest, hstop, search_flatMap hback
      (fun e he => hfits e (List.mem_append_right _ he)), KeyMap.find?_append, hfront, Option.none_or]
  · rw [if_neg hrange, find?_eq_none_of_mightContain hs (Bool.eq_false_iff.2 hrange)]
    rfl

end Outline

end Spillway.Table
