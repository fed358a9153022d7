import Spillway.Error
import Spillway.Table.Layout

/-!
# Writing table files

A writer takes entries one by one, refuses a key that is not greater than the one before, and
keeps what the end of the file needs: the number of entries, the samples for the index, the last
key and the running checksum.
-/

namespace Spillway.Table

structure Writer where
  path : Path
  file : FileId
  interval : Nat
  count : Nat := 0
  /-- Where the next entry goes. -/
  offset : Nat := headerSize
  /-- The index so far, latest first. -/
  samples : List Sample := []
  first : Option Bytes := none
  last : Option Sample := none
  checksum : Checksum := .start
  /-- The entries so far, latest first. -/
  written : List Bytes := []

/-- What is known of a table when it is finished. -/
structure Summary where
  path : Path
  entryCount : Nat
  minKey : Bytes
  maxKey : Bytes
  fileSize : Nat

namespace Summary

/-- Whether a key lies between the smallest and the largest one. -/
def mightContain (s : Summary) (key : Bytes) : Bool :=
  0 < s.entryCount && s.minKey ≤ key && key ≤ s.maxKey

end Summary

namespace Writer

/-- Starts a file, in place of the one that may be there. -/
def create (path : Path) (interval : Nat) : DiskM StorageError Writer := do
  let file ← (Disk.createFile path).storage
  return { path, file, interval := max interval 1 }

/-- The bytes of the longer of key and value. -/
def longest : Entry → Nat
  | (key, value) => max key.length ((value.map List.length).getD 0)

/-- Whether a key may not follow the keys before it. -/
def outOfOrder (w : Writer) (key : Bytes) : Bool :=
  match w.last with
  | some (last, _) => key ≤ last
  | none => false

/-- The next entry. A refused entry leaves no trace. -/
def add (w : Writer) (entry : Entry) : Except Corruption Writer :=
  if maxEntryBytes < longest entry then .error (.entryTooLong (longest entry) w.path)
  else if w.outOfOrder entry.1 then .error (.keysOutOfOrder w.path)
  else
    let bytes := entryBytes entry
    let sample := (entry.1, w.offset)
    .ok { w with
      count := w.count + 1
      offset := w.offset + bytes.length
      samples := if w.count % w.interval = 0 then sample :: w.samples else w.samples
      first := some (w.first.getD entry.1)
      last := some sample
      checksum := w.checksum.update bytes
      written := bytes :: w.written }

/-- The entries as they are in the file. -/
def data (w : Writer) : Bytes := w.written.reverse.flatten

/-- The index, which always lists the last entry. -/
def index (w : Writer) : List Sample :=
  match w.last with
  | none => w.samples.reverse
  | some last =>
    if w.samples.head?.map Prod.snd = some last.2 then w.samples.reverse
    else (last :: w.samples).reverse

/-- The whole file. -/
def image (w : Writer) : Bytes :=
  header w.count ++ w.data ++ w.index.flatMap sampleBytes ++
    footer w.offset w.checksum.value w.interval

/-- Completes the file. -/
def finish (w : Writer) : DiskM StorageError Summary := do
  (Disk.writeFile w.file w.image).storage
  return {
    path := w.path
    entryCount := w.count
    minKey := w.first.getD []
    maxKey := (w.last.map Prod.fst).getD []
    fileSize := w.image.length }

/-- Gives up: the file keeps the entries written so far, under a header that counts none. -/
def abandon (w : Writer) : DiskM StorageError Unit :=
  (Disk.writeFile w.file (header 0 ++ w.data)).storage

/-- Adds items until one is a failure or is refused; says why it stopped early. -/
def addAll (w : Writer) : List (Except StorageError Entry) → Writer × Option StorageError
  | [] => (w, none)
  | .error e :: _ => (w, some e)
  | .ok entry :: rest =>
    match w.add entry with
    | .ok w => addAll w rest
    | .error cause => (w, some (.corrupt cause))

/-- Adds all items and completes the file; when that fails it keeps what was added. -/
def fill (w : Writer) (items : List (Except StorageError Entry)) : DiskM StorageError Summary :=
  match w.addAll items with
  | (w, none) => w.finish
  | (w, some e) => do
    let _ ← outcome w.abandon
    throw e

end Writer

end Spillway.Table
