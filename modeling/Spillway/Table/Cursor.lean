import Spillway.Feed
import Spillway.Table.Reader

/-!
# Reading all entries of a table

A cursor reads the entries of a table in order, in blocks. It opens the file by its path on its
own, so it does not disturb lookups, and it ends after the first failure.
-/

namespace Spillway.Table

/-- Reads entries in order. -/
structure Cursor where
  handle : Disk.Handle
  /-- Where in the file the bytes after those read ahead are. -/
  position : Nat := headerSize
  /-- Bytes read but not used yet. -/
  ahead : Bytes := []
  /-- Where the next entry is. -/
  offset : Nat := headerSize
  /-- Where the entries end. -/
  stop : Nat
  failed : Bool := false

namespace Cursor

/-- How many bytes are read at once, unless more are asked for. -/
def blockSize : Nat := 8192

/-- The next `n` bytes. -/
def take (d : Disk) (c : Cursor) (n : Nat) : Except IoError (Bytes × Cursor) :=
  let ready := c.ahead.take n
  if ready.length = n then .ok (ready, { c with ahead := c.ahead.drop n })
  else
    match d.bytesOf c.handle with
    | .error e => .error e
    | .ok bytes =>
      let missing := n - ready.length
      let block := (bytes.drop c.position).take (max missing blockSize)
      if block.length < missing then .error .unexpectedEof
      else
        .ok (ready ++ block.take missing,
          { c with position := c.position + block.length, ahead := block.drop missing })

/-- The next entry. -/
def readEntry (d : Disk) (c : Cursor) : Except IoError (Entry × Cursor) := do
  let (head, c') ← c.take d entryHeaderSize
  let (keyLength, valueLength?) := Outline.lengths head
  let (key, c') ← c'.take d keyLength
  match valueLength? with
  | none => return ((key, none), { c' with offset := c.offset + entryHeaderSize + keyLength })
  | some valueLength =>
    let (value, c') ← c'.take d valueLength
    return ((key, some value),
      { c' with offset := c.offset + entryHeaderSize + keyLength + valueLength })

/-- The next entry and the cursor after it; after a failure the cursor is at its end. -/
def next (d : Disk) (c : Cursor) : Option (Except StorageError Entry × Cursor) :=
  if c.failed || c.stop ≤ c.offset then none
  else
    match c.readEntry d with
    | .ok (entry, c') => some (.ok entry, c')
    | .error e => some (.error (.io e), { c with failed := true })

/-- A bound on the entries and failures to come. -/
def remaining (c : Cursor) : Nat := if c.failed then 0 else c.stop - c.offset

theorem take_fields {d : Disk} {c c' : Cursor} {n : Nat} {bytes : Bytes}
    (h : c.take d n = .ok (bytes, c')) :
    c'.offset = c.offset ∧ c'.stop = c.stop ∧ c'.failed = c.failed := by
  simp only [take] at h
  split at h
  · cases h
    exact ⟨rfl, rfl, rfl⟩
  · split at h
    · cases h
    · split at h
      · cases h
      · cases h
        exact ⟨rfl, rfl, rfl⟩

theorem readEntry_fields {d : Disk} {c c' : Cursor} {entry : Entry}
    (h : c.readEntry d = .ok (entry, c')) :
    c.offset < c'.offset ∧ c'.stop = c.stop ∧ c'.failed = c.failed := by
  simp only [readEntry, bind, Except.bind, pure, Except.pure, entryHeaderSize] at h
  split at h
  · cases h
  · next h1 =>
    split at h
    · cases h
    · next h2 =>
      have f1 := take_fields h1
      have f2 := take_fields h2
      split at h
      · cases h
        simp only [f2.2.1, f1.2.1, f2.2.2, f1.2.2, and_self, and_true]
        omega
      · split at h
        · cases h
        · next h3 =>
          have f3 := take_fields h3
          cases h
          simp only [f3.2.1, f2.2.1, f1.2.1, f3.2.2, f2.2.2, f1.2.2, and_self, and_true]
          omega

theorem remaining_next {d : Disk} {c c' : Cursor} {item : Except StorageError Entry}
    (h : c.next d = some (item, c')) : c'.remaining < c.remaining := by
  simp only [next] at h
  split at h
  · cases h
  · next hc =>
    simp only [Bool.or_eq_true, decide_eq_true_eq, not_or, Bool.not_eq_true, Nat.not_le] at hc
    split at h
    · next hr =>
      cases h
      obtain ⟨ho, hs, hf⟩ := readEntry_fields hr
      simp only [remaining, hf, hs, hc.1, Bool.false_eq_true, if_false]
      omega
    · cases h
      simp only [remaining, hc.1, Bool.false_eq_true, if_true, if_false]
      omega

/-- Cursors feed what the disk holds. -/
def feed (d : Disk) : Feed StorageError Cursor where
  pull c := c.next d
  remaining := remaining
  remaining_pull := remaining_next

end Cursor

/-- A cursor at the first entry of a table. -/
def Reader.cursor (r : Reader) : DiskM StorageError Cursor := do
  let handle ← (Disk.openFile r.path).storage
  return { handle, stop := r.outline.indexOffset }


end Spillway.Table
