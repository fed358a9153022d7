import Spillway.Error
import Spillway.Table.Layout

/-!
# Reading table files

`Outline.ofBytes` checks the bytes of a table file and reads its index; it refuses files with a
cause of corruption. `Outline.find` looks a key up: the index gives the last sampled key that is not
greater, and the entries from there on are read until the key is found or passed.
-/

namespace Spillway.Table

/-- What the bytes of a table file tell about it. -/
structure Outline where
  entryCount : Nat
  /-- Where the entries end. -/
  indexOffset : Nat
  index : List Sample
  fileSize : Nat
  deriving DecidableEq

namespace Outline

def parseIndex (path : Path) (bytes : Bytes) : Except Corruption (List Sample) :=
  if bytes = [] then .ok []
  else
    match _h : Bytes.split? 12 bytes with
    | none => .error (.truncatedIndexEntry path)
    | some (head, rest) =>
      match _hk : Bytes.split? (LittleEndian.decode (head.take 4)) rest with
      | none => .error (.truncatedIndexKey path)
      | some (key, rest') =>
        match parseIndex path rest' with
        | .ok samples => .ok ((key, LittleEndian.decode (head.drop 4)) :: samples)
        | .error cause => .error cause
termination_by bytes.length
decreasing_by
  obtain ⟨rfl, h12⟩ := Bytes.split?_eq_some_iff.1 _h
  obtain ⟨rfl, -⟩ := Bytes.split?_eq_some_iff.1 _hk
  simp only [List.length_append]
  omega

/-- Checks a file from the outside in: size, magic bytes, version, place of the index, checksum of
the entries, index. -/
def ofBytes (path : Path) (bytes : Bytes) : Except Corruption Outline :=
  let size := bytes.length
  if size < headerSize + footerSize then .error (.truncated path size)
  else
    let found := bytes.take 4
    let foundVersion := LittleEndian.decode ((bytes.drop 4).take 2)
    let foot := bytes.drop (size - footerSize)
    let indexOffset := LittleEndian.decode (foot.take 8)
    let expected := UInt32.ofNat (LittleEndian.decode ((foot.drop 8).take 4))
    if found ≠ magic then .error (.badMagic found)
    else if foundVersion ≠ version then .error (.badVersion foundVersion)
    else if indexOffset < headerSize ∨ size - footerSize < indexOffset then
      .error (.indexOutside path indexOffset)
    else
      let actual := Checksum.ofChunks ((bytes.take indexOffset).drop headerSize)
      if actual ≠ expected then .error (.checksumMismatch path expected actual)
      else
        match parseIndex path ((bytes.take (size - footerSize)).drop indexOffset) with
        | .error cause => .error cause
        | .ok index =>
          .ok {
            entryCount := LittleEndian.decode ((bytes.drop 6).take 8)
            indexOffset
            index
            fileSize := size }

def minKey? (o : Outline) : Option Bytes := o.index.head?.map Prod.fst

def maxKey? (o : Outline) : Option Bytes := o.index.getLast?.map Prod.fst

/-- Whether a key lies between the first and the last key of the index. -/
def mightContain (o : Outline) (key : Bytes) : Bool :=
  match o.minKey?, o.maxKey? with
  | some least, some greatest => least ≤ key && key ≤ greatest
  | _, _ => false

/-- The number of leading positions that pass a test, found by halving `size` positions from
`base` on; the positions that pass have to come first. -/
def bisect (test : Nat → Bool) (base size : Nat) : Nat :=
  if size = 0 then base
  else if size = 1 then if test base then base + 1 else base
  else
    let half := size / 2
    bisect test (if test (base + half) then base + half else base) (size - half)
termination_by size

/-- How many keys of the index are not greater than a key. -/
def slot (o : Outline) (key : Bytes) : Nat :=
  bisect (fun i => ((o.index[i]?).map fun sample => decide (sample.1 ≤ key)).getD false)
    0 o.index.length

/-- The lengths in the header of an entry; the value's is `none` for a deletion. -/
def lengths (head : Bytes) : Nat × Option Nat :=
  let length := LittleEndian.decode (head.drop 4)
  (LittleEndian.decode (head.take 4), if length = deletionMark then none else some length)

/-- Reads entries at the front of `bytes`, the first of them at `offset`, until the key is found or
passed or the entries end at `stop`. -/
def search (key : Bytes) (stop offset : Nat) (bytes : Bytes) :
    Except StorageError (Option Bytes) :=
  if offset < stop then
    match Bytes.split? entryHeaderSize bytes with
    | none => .error (.io .unexpectedEof)
    | some (head, rest) =>
      let (keyLength, valueLength?) := lengths head
      match Bytes.split? keyLength rest with
      | none => .error (.io .unexpectedEof)
      | some (found, rest) =>
        if found = key then
          match valueLength? with
          | none => .ok none
          | some valueLength =>
            match Bytes.split? valueLength rest with
            | none => .error (.io .unexpectedEof)
            | some (value, _) => .ok (some value)
        else if key < found then .error .keyNotFound
        else
          let valueLength := valueLength?.getD 0
          search key stop (offset + entryHeaderSize + keyLength + valueLength)
            (rest.drop valueLength)
  else .error .keyNotFound
termination_by stop - offset
decreasing_by simp only [entryHeaderSize]; omega

/-- Where no file reaches: a place from here on can not be gone to. -/
def offsetLimit : Nat := 0x8000000000000000

/-- The value of a key in a file with this outline, or `none` when it was deleted. -/
def find (o : Outline) (bytes : Bytes) (key : Bytes) : Except StorageError (Option Bytes) :=
  if o.mightContain key then
    match o.slot key with
    | 0 => .error .keyNotFound
    | i + 1 =>
      match o.index[i]? with
      | none => .error .keyNotFound
      | some (_, offset) =>
        if offsetLimit ≤ offset then .error (.io .invalidInput)
        else search key o.indexOffset offset (bytes.drop offset)
  else .error .keyNotFound

end Outline

/-- An open table: its file stays readable when it loses its name. -/
structure Reader where
  path : Path
  file : FileId
  outline : Outline

namespace Reader

/-- Opens the table at a path and checks it. -/
def load (path : Path) : DiskM StorageError Reader := do
  match ← (Disk.openFile path).storage with
  | .directory => throw (.io .isADirectory)
  | .file id =>
    match Outline.ofBytes path ((← get).content id) with
    | .error cause => throw (.corrupt cause)
    | .ok outline => return { path, file := id, outline }

/-- The value of a key, or `none` when it was deleted. -/
def find (r : Reader) (d : Disk) (key : Bytes) : Except StorageError (Option Bytes) :=
  r.outline.find (d.content r.file) key

end Reader

end Spillway.Table
