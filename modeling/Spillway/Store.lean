import Spillway.Memtable
import Spillway.Merge
import Spillway.Store.Name
import Spillway.Store.Tier
import Spillway.Table.Cursor
import Spillway.Table.Writer

/-!
# The tables of a partition

A store keeps the table files of one directory, from the newest to the oldest. Memtables are
written to new tables at the front, and `compact` replaces neighbouring tables by one that holds
the newest entry of each key. A lookup takes the first table that knows the key.
-/

namespace Spillway

structure Store where
  dir : Path
  /-- The open tables, newest first. -/
  tables : List Table.Reader := []
  nextId : UInt64 := 1
  interval : Nat
  /-- Size of all tables that were merged into others. -/
  bytesCompacted : Nat := 0

/-- Actions of a store. -/
abbrev StoreM := OnDisk Store StorageError

namespace Store

def tablePath (dir : Path) (id : UInt64) : Path := dir.join (tableName id)

/-- Puts a number in its place among others, the largest first. -/
def insertId (id : UInt64) : List UInt64 → List UInt64
  | [] => [id]
  | other :: rest => if other ≤ id then id :: other :: rest else other :: insertId id rest

/-- The numbers of the table files among what a directory holds, largest first. -/
def tableIds (children : List (String × Node)) : List UInt64 :=
  let ids := children.filterMap fun (name, node) =>
    match node with
    | .file _ => tableId? name
    | .directory => none
  ids.foldr insertId []

/-- Opens the store of a directory, which is made when it is missing. -/
def load (dir : Path) (interval : Nat) : DiskM StorageError Store := do
  (Disk.createDirectory dir).storage
  let children ← DiskM.storage (ofExcept ((← get).children dir))
  let ids := tableIds children
  let tables ← ids.mapM fun id => Table.Reader.load (tablePath dir id)
  return { dir, tables, nextId := ids.head?.elim 1 (· + 1), interval := max interval 1 }

/-! ## Lookup -/

/-- The answer of the first table that knows the key, or `none`. -/
def findIn (d : Disk) (key : Bytes) : List Table.Reader → Except StorageError (Option Bytes)
  | [] => .ok none
  | table :: rest =>
    if table.outline.mightContain key then
      match table.find d key with
      | .error .keyNotFound => findIn d key rest
      | answer => answer
    else findIn d key rest

/-- The value of a key, or `none` when it has none. -/
def find (s : Store) (d : Disk) (key : Bytes) : Except StorageError (Option Bytes) :=
  findIn d key s.tables

/-- Cursors over all tables, newest first. -/
def cursors : StoreM (List Table.Cursor) := do
  let (s, _) ← get
  onDisk (s.tables.mapM Table.Reader.cursor)

/-- All entries, the newest of each key, with the deletions or without. -/
def entries (keepDeletions : Bool) : StoreM (List (Except StorageError Entry)) := do
  let cursors ← cursors
  let (_, d) ← get
  let merge ← ofExcept (Merge.start (Table.Cursor.feed d) cursors keepDeletions)
  return merge.toList (Table.Cursor.feed d)

/-! ## Writing tables -/

/-- Replaces a store by what a function makes of it. -/
def update (f : Store → Store) : StoreM Unit := modify fun (s, d) => (f s, d)

/-- Reads items one after the other; the first that the disk does not give is a failure and the
last. -/
def readEach : List (Except StorageError Entry) →
    DiskM StorageError (List (Except StorageError Entry))
  | [] => return []
  | item :: rest => do
    match ← outcome Disk.attempt with
    | .error e => return [.error (.io e)]
    | .ok _ => return item :: (← readEach rest)

/-- Writes a table with the next number, which is used up even when writing fails. The items are
drawn after its file was made. -/
def writeTable (items : DiskM StorageError (List (Except StorageError Entry))) :
    StoreM Table.Summary := do
  let (s, _) ← get
  update fun s => { s with nextId := s.nextId + 1 }
  onDisk do
    let writer ← Table.Writer.create (tablePath s.dir s.nextId) s.interval
    writer.fill (← items)

/-- Writes a memtable to a new table, which becomes the newest. -/
def flush (m : Memtable) : StoreM Table.Summary := do
  if m.isEmpty then throw (.corrupt .emptyFlush)
  let summary ← writeTable (return m.entries.map .ok)
  let table ← onDisk (Table.Reader.load summary.path)
  update fun s => { s with tables := table :: s.tables }
  return summary

/-- The tables of a tier. -/
def inputs (tier : Tier) (tables : List Table.Reader) : List Table.Reader :=
  (tables.drop tier.start).take tier.count

/-- The tables with those of a tier replaced. -/
def replaceTier (tier : Tier) (replacement tables : List Table.Reader) : List Table.Reader :=
  tables.take tier.start ++ replacement ++ tables.drop (tier.start + tier.count)

/-- Writes the merge of a tier to a new table. Deletions are kept as long as there are older
tables. -/
def mergeTier (tier : Tier) : StoreM Table.Summary := do
  let (s, _) ← get
  let keepDeletions := tier.start + tier.count ≠ s.tables.length
  let cursors ← onDisk ((inputs tier s.tables).mapM Table.Reader.cursor)
  onDisk Disk.attempt.storage
  let (_, d) ← get
  let merge ← ofExcept (Merge.start (Table.Cursor.feed d) cursors keepDeletions)
  writeTable do readEach (merge.toList (Table.Cursor.feed (← get)))

/-- Lets a merged table take the place of its tier; one without entries is removed. -/
def install (tier : Tier) (summary : Table.Summary) : StoreM (Option Table.Summary) := do
  if 0 < summary.entryCount then
    let table ← onDisk (Table.Reader.load summary.path)
    update fun s => { s with tables := replaceTier tier [table] s.tables }
    return some summary
  else
    update fun s => { s with tables := replaceTier tier [] s.tables }
    let _ ← outcome (onDisk (Disk.removeFile summary.path))
    return none

/-- Takes the names of tables away that are not used any more, as far as that succeeds. -/
def removeTables (tables : List Table.Reader) : StoreM Unit := do
  for table in tables do
    let _ ← outcome (onDisk (Disk.removeFile table.path))

/-- Merges neighbouring tables into one that takes their place; tells about it unless there was
nothing to merge or nothing was left. -/
def compact : StoreM (Option Table.Summary) := do
  let (s, _) ← get
  match Tier.pick? (s.tables.map (·.outline.fileSize)) with
  | none => return none
  | some tier =>
    let summary ← mergeTier tier
    let output ← install tier summary
    removeTables (inputs tier s.tables)
    update fun s => { s with bytesCompacted := s.bytesCompacted + tier.total }
    return output

end Store

end Spillway
