import Spillway.Config
import Spillway.Source
import Spillway.Store

/-!
# Partitions

A partition is a keyspace of its own: recent writes in a memtable and the rest in a store. When the
memtable reaches its limit it is written to a table, and when there are too many tables some of
them are merged.
-/

namespace Spillway

structure Partition where
  /-- Tells partitions of one engine apart, also those of the same name. -/
  serial : Nat
  name : String
  dir : Path
  memtable : Memtable := {}
  store : Store
  writeBufferBytes : Nat
  maxTables : Nat

/-- Actions of a partition. -/
abbrev PartitionM := OnDisk Partition StorageError

namespace Partition

/-- Opens the partition of a directory. -/
def load (serial : Nat) (name : String) (dir : Path) (config : Config) :
    DiskM StorageError Partition := do
  let store ← Store.load dir config.indexInterval
  return {
    serial, name, dir, store
    writeBufferBytes := max config.writeBufferBytes 1
    maxTables := max config.maxTables 1 }

/-- Replaces a partition by what a function makes of it. -/
def update (f : Partition → Partition) : PartitionM Unit := modify fun (p, d) => (f p, d)

/-- An action of the store. -/
def onStore {α : Type} (act : StoreM α) : PartitionM α :=
  zoom (fun (p, d) => (p.store, d)) (fun (store, d) (p, _) => ({ p with store }, d)) act

/-- The value of a key, or `none` when it has none: the memtable knows best. -/
def find (p : Partition) (d : Disk) (key : Bytes) : Except StorageError (Option Bytes) :=
  match p.memtable.find? key with
  | some value => .ok value
  | none => p.store.find d key

/-- Writes the memtable to a table, unless it is empty, and merges tables when there are too many
of them. -/
def flush : PartitionM Unit := do
  let (p, _) ← get
  unless p.memtable.isEmpty do
    let _ ← onStore (Store.flush p.memtable)
    update fun p => { p with memtable := p.memtable.clear }
    let (p, _) ← get
    if p.maxTables < p.store.tables.length then
      let _ ← onStore Store.compact

/-- Records a write, and flushes when the memtable has reached its limit. -/
def write (key : Bytes) (value : Option Bytes) : PartitionM Unit := do
  update fun p => { p with memtable := p.memtable.write key value }
  let (p, _) ← get
  if p.memtable.isFull p.writeBufferBytes then flush

def put (key value : Bytes) : PartitionM Unit := write key (some value)

def delete (key : Bytes) : PartitionM Unit := write key none

/-- Writes entries one after the other; the first failure ends it. -/
def putBatch (batch : List (Bytes × Bytes)) : PartitionM Unit :=
  batch.forM fun (key, value) => put key value

/-- A merge of all that the partition holds now, deletions hidden. -/
def scan : PartitionM (Merge Source) := do
  let cursors ← onStore Store.cursors
  let (p, d) ← get
  ofExcept (Merge.start (Source.feed d) (.listed p.memtable.entries :: cursors.map .table) false)

end Partition

end Spillway
