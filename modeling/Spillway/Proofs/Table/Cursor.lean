import Spillway.Proofs.Disk.Actions
import Spillway.Proofs.Merge
import Spillway.Proofs.Table.Reader
import Spillway.Source

/-!
# Cursors read what was written

A cursor in front of entries gives them one by one and then ends (`Cursor.feed_tracks`), whatever
the blocks are in which it reads the file. Files that come later do not disturb it (`Reads.mono`).
-/

namespace Spillway.Table

namespace Cursor

variable {d d' : Disk} {c c' : Cursor} {id : FileId} {entries : List Entry}

/-- The bytes that a cursor has not used yet, those read ahead and those still in its file. -/
structure Faces (d : Disk) (id : FileId) (c : Cursor) (bytes : Bytes) : Prop where
  handle : c.handle = .file id
  bytes : c.ahead ++ (d.content id).drop c.position = bytes

/-- A block read behind `front` leaves what comes after `front` to be read. -/
theorem drop_block (tail : Bytes) (missing : Nat) :
    (tail.take (max missing blockSize)).drop missing ++
      tail.drop (tail.take (max missing blockSize)).length = tail.drop missing := by
  generalize hm : max missing blockSize = m
  have hle : missing ≤ m := hm ▸ Nat.le_max_left _ _
  rw [List.length_take]
  by_cases hlen : m ≤ tail.length
  · have hmissing : missing ≤ (tail.take m).length := by rw [List.length_take]; omega
    rw [Nat.min_eq_left hlen, ← List.drop_append_of_le_length hmissing, List.take_append_drop]
  · rw [Nat.min_eq_right (by omega), List.take_of_length_le (by omega), List.drop_length,
      List.append_nil]

/-- Taking exactly the bytes in front leaves the others. -/
theorem Faces.take {front back : Bytes} {n : Nat} (h : c.Faces d id (front ++ back))
    (hn : front.length = n) : ∃ c', c.take d n = .ok (front, c') ∧ c'.Faces d id back := by
  obtain ⟨hhandle, hbytes⟩ := h
  generalize htail : (d.content id).drop c.position = tail at hbytes
  unfold Cursor.take
  by_cases hready : (c.ahead.take n).length = n
  · have hlong : n ≤ c.ahead.length := by rw [List.length_take] at hready; omega
    have hfront : c.ahead.take n = front := by
      rw [← List.take_append_of_le_length hlong, hbytes]
      exact List.take_left' hn
    refine ⟨{ c with ahead := c.ahead.drop n }, ?_, hhandle, ?_⟩
    · rw [if_pos hready, hfront]
    · rw [htail, ← List.drop_append_of_le_length hlong, hbytes]
      exact List.drop_left' hn
  · have hshort : c.ahead.length < n := by rw [List.length_take] at hready; omega
    have htake : c.ahead.take n = c.ahead := List.take_of_length_le (Nat.le_of_lt hshort)
    have htotal := congrArg List.length hbytes
    rw [List.length_append, List.length_append, hn] at htotal
    have hfront : c.ahead ++ tail.take (n - c.ahead.length) = front := by
      rw [← List.take_left' hn, ← hbytes, List.take_append, htake]
    have hback : tail.drop (n - c.ahead.length) = back := by
      have hdrop : (front ++ back).drop n = back := List.drop_left' hn
      rw [← hdrop, ← hbytes, List.drop_append, List.drop_of_length_le (Nat.le_of_lt hshort),
        List.nil_append]
    have hblock : ¬ (tail.take (max (n - c.ahead.length) blockSize)).length <
        n - c.ahead.length := by
      rw [List.length_take]
      omega
    rw [hhandle, Disk.bytesOf]
    simp only [htail, htake]
    rw [if_neg (Nat.ne_of_lt hshort), if_neg hblock]
    refine ⟨_, congrArg Except.ok (Prod.ext ?_ rfl), rfl, ?_⟩
    · rw [List.take_take, Nat.min_eq_left (Nat.le_max_left _ _)]
      exact hfront
    · rw [← List.drop_drop, htail, drop_block, hback]

/-- A cursor in front of an entry reads it. -/
theorem Faces.readEntry {entry : Entry} {rest : Bytes}
    (h : c.Faces d id (entryBytes entry ++ rest)) (hfit : Fits entry) :
    ∃ c', c.readEntry d = .ok (entry, c') ∧ c'.Faces d id rest ∧
      c'.offset = c.offset + (entryBytes entry).length := by
  obtain ⟨key, value⟩ := entry
  have hlength := length_entryBytes (key, value)
  rw [Outline.entryBytes_eq, List.append_assoc, List.append_assoc key] at h
  obtain ⟨c₁, hc₁, h₁⟩ := h.take (n := entryHeaderSize) (by
    simp only [List.length_append, LittleEndian.length_encode]; rfl)
  obtain ⟨c₂, hc₂, h₂⟩ := h₁.take rfl
  unfold Cursor.readEntry
  simp only [hc₁, bind, Except.bind, pure, Except.pure, Outline.lengths_entry hfit, hc₂]
  cases value with
  | none =>
    refine ⟨_, rfl, ⟨h₂.handle, h₂.bytes⟩, ?_⟩
    rw [hlength, Memtable.footprint, ← Nat.add_assoc]
    rfl
  | some value =>
    obtain ⟨c₃, hc₃, h₃⟩ := h₂.take rfl
    simp only [Option.map_some, Option.getD_some] at hc₃ ⊢
    simp only [hc₃]
    refine ⟨_, rfl, ⟨h₃.handle, h₃.bytes⟩, ?_⟩
    rw [hlength, Memtable.footprint, ← Nat.add_assoc, ← Nat.add_assoc]
    rfl

/-- The cursor gives these entries and then ends. -/
structure Reads (d : Disk) (c : Cursor) (entries : List Entry) : Prop where
  sound : c.failed = false
  stop : c.stop = c.offset + (entries.flatMap entryBytes).length
  fits : ∀ entry ∈ entries, Fits entry
  faces : ∃ id rest, id < d.contents.length ∧ c.Faces d id (entries.flatMap entryBytes ++ rest)

theorem Reads.mono (hr : c.Reads d entries) (h : Disk.Later d d') : c.Reads d' entries := by
  obtain ⟨id, rest, hid, hhandle, hbytes⟩ := hr.faces
  refine ⟨hr.sound, hr.stop, hr.fits, id, rest, Nat.lt_of_lt_of_le hid h.contents.length_le,
    hhandle, ?_⟩
  rw [h.content hid]
  exact hbytes

theorem Reads.next_nil (h : c.Reads d []) : c.next d = none := by
  have hstop : c.stop ≤ c.offset := by
    rw [h.stop]
    exact Nat.le_refl _
  rw [Cursor.next, h.sound, Bool.false_or, if_pos (decide_eq_true hstop)]

theorem Reads.next_cons {entry : Entry} (h : c.Reads d (entry :: entries)) :
    ∃ c', c.next d = some (.ok entry, c') ∧ c'.Reads d entries := by
  obtain ⟨id, rest, hid, hfaces⟩ := h.faces
  rw [List.flatMap_cons, List.append_assoc] at hfaces
  obtain ⟨c', hread, hfaces', hoffset⟩ := hfaces.readEntry (h.fits _ List.mem_cons_self)
  obtain ⟨hlt, hstop, hfailed⟩ := readEntry_fields hread
  have hstop' := h.stop
  rw [List.flatMap_cons, List.length_append] at hstop'
  refine ⟨c', ?_, hfailed.trans h.sound, ?_, fun e he => h.fits e (List.mem_cons_of_mem _ he), id,
    rest, hid, hfaces'⟩
  · rw [Cursor.next, h.sound, Bool.false_or, if_neg, hread]
    rw [decide_eq_true_eq]
    omega
  · omega

theorem feed_tracks (d : Disk) : (Cursor.feed d).Tracks (Reads d) where
  pull_nil h := h.next_nil
  pull_cons h := h.next_cons

end Cursor

/-- A cursor at the start of a table file reads its entries. -/
theorem IsFile.reads {d : Disk} {id : FileId} {entries : List Entry} {o : Outline} {path : Path}
    (h : IsFile entries (d.content id)) (hid : id < d.contents.length)
    (ho : Outline.ofBytes path (d.content id) = .ok o) :
    Cursor.Reads d { handle := .file id, stop := o.indexOffset } entries := by
  obtain ⟨interval, hlayout⟩ := h.layout
  have hsmall := h.small
  rw [hlayout] at ho hsmall
  rw [Outline.ofBytes_layout path interval h.fits hsmall] at ho
  cases ho
  have hbytes : ∃ rest, (d.content id).drop headerSize = entries.flatMap entryBytes ++ rest := by
    rw [hlayout, Table.layout, List.append_assoc, List.append_assoc]
    exact ⟨_, List.drop_left' (length_header _)⟩
  obtain ⟨rest, hrest⟩ := hbytes
  exact ⟨rfl, rfl, h.fits, id, rest, hid, rfl, hrest⟩

end Spillway.Table

namespace Spillway.Source

/-- What a source of a scan gives: the entries listed, or those that its cursor reads. -/
def Gives (d : Disk) : Source → List Entry → Prop
  | listed entries, given => entries = given
  | table cursor, given => cursor.Reads d given

theorem feed_tracks (d : Disk) : (Source.feed d).Tracks (Gives d) where
  pull_nil {s} h := by
    cases s with
    | listed entries =>
      cases (h : entries = [])
      rfl
    | table cursor =>
      have hnext := Table.Cursor.Reads.next_nil h
      show (cursor.next d).map _ = none
      rw [hnext]
      rfl
  pull_cons {s e es} h := by
    cases s with
    | listed entries =>
      cases (h : entries = e :: es)
      exact ⟨listed es, rfl, rfl⟩
    | table cursor =>
      obtain ⟨c', hnext, hreads⟩ := Table.Cursor.Reads.next_cons h
      refine ⟨table c', ?_, hreads⟩
      show (cursor.next d).map _ = _
      rw [hnext]
      rfl

end Spillway.Source
