import Spillway.Bytes.Endian
import Spillway.Checksum
import Spillway.KeyMap

/-!
# The layout of table files

A table file holds entries in the order of their keys:

* a header of 14 bytes: the magic bytes, the version in two bytes and the number of entries in
  eight;
* the entries: the lengths of key and value in four bytes each, the key and the value; the largest
  length stands for a deletion;
* the index, for every `interval`-th entry and the last one: the length of the key in four bytes,
  the offset of the entry in eight, and the key;
* a footer of 16 bytes: the offset of the index in eight bytes, the checksum of the entries in
  four and the interval in four.

Words are written with the least significant byte first. `layout` is the whole file for given
entries.
-/

namespace Spillway.Table

/-- `SPKV`. -/
def magic : Bytes := [0x53, 0x50, 0x4B, 0x56]

def version : Nat := 1

def headerSize : Nat := 14

def footerSize : Nat := 16

def entryHeaderSize : Nat := 8

/-- The length that marks a deletion. -/
def deletionMark : Nat := 0xFFFFFFFF

/-- The longest key or value that an entry can hold. -/
def maxEntryBytes : Nat := deletionMark - 1

def header (count : Nat) : Bytes :=
  magic ++ LittleEndian.encode 2 version ++ LittleEndian.encode 8 count

def entryBytes : Entry → Bytes
  | (key, some value) =>
    LittleEndian.encode 4 key.length ++ LittleEndian.encode 4 value.length ++ key ++ value
  | (key, none) =>
    LittleEndian.encode 4 key.length ++ LittleEndian.encode 4 deletionMark ++ key

/-- An entry of the index: a key and the offset of its entry in the file. -/
abbrev Sample := Bytes × Nat

def sampleBytes (sample : Sample) : Bytes :=
  LittleEndian.encode 4 sample.1.length ++ LittleEndian.encode 8 sample.2 ++ sample.1

def footer (indexOffset : Nat) (checksum : UInt32) (interval : Nat) : Bytes :=
  LittleEndian.encode 8 indexOffset ++ LittleEndian.encode 4 checksum.toNat ++
    LittleEndian.encode 4 interval

/-- The keys of entries with their offsets, when the first is at `offset`. -/
def placed (offset : Nat) : List Entry → List Sample
  | [] => []
  | entry :: rest => (entry.1, offset) :: placed (offset + (entryBytes entry).length) rest

/-- The places that the index lists: every `interval`-th one and the last. -/
def sampled (interval : Nat) (places : List Sample) : List Sample :=
  places.zipIdx.filterMap fun (sample, i) =>
    if i % interval = 0 ∨ i + 1 = places.length then some sample else none

/-- The file that holds the entries. -/
def layout (interval : Nat) (entries : List Entry) : Bytes :=
  let data := entries.flatMap entryBytes
  header entries.length ++ data ++
    (sampled interval (placed headerSize entries)).flatMap sampleBytes ++
    footer (headerSize + data.length) (Checksum.ofBytes data) interval

end Spillway.Table
