import Spillway.Merge
import Spillway.Table.Cursor

/-!
# Sources of a scan

A scan merges the entries of a memtable, taken when it started, with those of tables, read from
disk as it goes on.
-/

namespace Spillway

inductive Source where
  /-- Entries held in memory. -/
  | listed (entries : List Entry)
  /-- Entries of a table. -/
  | table (cursor : Table.Cursor)

namespace Source

def pull (d : Disk) : Source → Option (Except StorageError Entry × Source)
  | listed [] => none
  | listed (entry :: rest) => some (.ok entry, listed rest)
  | table cursor => (cursor.next d).map fun (item, cursor) => (item, table cursor)

def remaining : Source → Nat
  | listed entries => entries.length
  | table cursor => cursor.remaining

theorem remaining_pull {d : Disk} {s s' : Source} {item : Except StorageError Entry}
    (h : s.pull d = some (item, s')) : s'.remaining < s.remaining := by
  match s with
  | listed [] => cases h
  | listed (_ :: _) =>
    cases h
    simp [remaining]
  | table cursor =>
    simp only [pull, Option.map_eq_some_iff] at h
    obtain ⟨⟨item', cursor'⟩, hn, he⟩ := h
    cases he
    exact Table.Cursor.remaining_next hn

/-- Sources feed what they hold, or what the disk holds for them. -/
def feed (d : Disk) : Feed StorageError Source where
  pull := pull d
  remaining := remaining
  remaining_pull := remaining_pull

end Source

end Spillway
