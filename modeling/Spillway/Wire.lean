import Spillway.Bytes.Endian
import Spillway.Text.Utf8

/-!
# Wire formats

A format writes values of a type as bytes and reads one value from the front of bytes, leaving
what follows. Formats are put together from a few:

* words of a fixed number of bytes, least significant byte first;
* booleans and optional values, with a leading byte 0 or 1;
* lists and texts, with their length in eight bytes in front;
* alternatives, with their number in four bytes in front;
* pairs, one part after the other.
-/

namespace Spillway.Wire

/-- Why bytes hold no value of a format. -/
inductive Error where
  /-- The bytes end inside a word. -/
  | endOfInput
  /-- The bytes end inside a text whose length has been read. -/
  | cutShort
  | badBoolean (byte : UInt8)
  | badOption (byte : UInt8)
  | badVariant (index count : Nat)
  | notUtf8 (fault : Utf8.Fault)
  | badChar
  deriving DecidableEq

namespace Error

def message : Error → String
  | endOfInput => "io error: unexpected end of file"
  | cutShort => "io error: "
  | badBoolean byte => s!"invalid u8 while decoding bool, expected 0 or 1, found {byte}"
  | badOption byte => s!"tag for enum is not valid, found {byte}"
  | badVariant index count =>
    s!"invalid value: integer `{index}`, expected variant index 0 <= i < {count}"
  | notUtf8 fault => s!"string is not valid utf8: {fault.message}"
  | badChar => "char is not valid"

end Error

/-- Readers take bytes from the front of what is left of the input. -/
abbrev Read := StateT Bytes (Except Error)

structure Format (α : Type) where
  write : α → Bytes
  read : Read α

/-- The next `n` bytes. -/
def take (n : Nat) : Read Bytes := fun bytes =>
  match Bytes.split? n bytes with
  | some (head, rest) => .ok (head, rest)
  | none => .error .endOfInput

namespace Format

/-- The format of `α` seen through a type with the same values. -/
def map {α β : Type} (f : Format α) (make : α → β) (back : β → α) : Format β where
  write b := f.write (back b)
  read := make <$> f.read

/-- A word of `n` bytes. -/
def word (n : Nat) : Format (BitVec (8 * n)) where
  write v := LittleEndian.encode n v.toNat
  read := do return BitVec.ofNat _ (LittleEndian.decode (← take n))

def uint8 : Format UInt8 := (word 1).map UInt8.ofBitVec UInt8.toBitVec
def uint32 : Format UInt32 := (word 4).map UInt32.ofBitVec UInt32.toBitVec
def uint64 : Format UInt64 := (word 8).map UInt64.ofBitVec UInt64.toBitVec
def int32 : Format Int32 := (word 4).map Int32.ofBitVec Int32.toBitVec
def int64 : Format Int64 := (word 8).map Int64.ofBitVec Int64.toBitVec

/-- A length; lengths that can occur fit into eight bytes. -/
def length : Format Nat where
  write n := LittleEndian.encode 8 n
  read := do return LittleEndian.decode (← take 8)

def bool : Format Bool where
  write b := [if b then 1 else 0]
  read := do
    match ← uint8.read with
    | 0 => return false
    | 1 => return true
    | other => throw (.badBoolean other)

/-- The number of bytes of a character that starts with this byte. -/
def charWidth? (lead : UInt8) : Option Nat :=
  (Utf8.following lead).map (·.length + 1)

/-- A character as its UTF-8 bytes. -/
def char : Format Char where
  write c := Utf8.encode (String.singleton c)
  read := do
    let lead ← uint8.read
    match charWidth? lead with
    | none => throw .badChar
    | some width =>
      match Bytes.split? (width - 1) (← get) with
      | none => throw .badChar
      | some (tail, rest) =>
        set rest
        match Utf8.decode (lead :: tail) with
        | .error _ => throw .badChar
        | .ok text =>
          match text.toList with
          | [c] => return c
          | _ => throw .badChar

/-- A text as its length in bytes and its UTF-8 bytes. -/
def string : Format String where
  write s := length.write (Utf8.encode s).length ++ Utf8.encode s
  read := do
    let n ← length.read
    match Bytes.split? n (← get) with
    | none => throw .cutShort
    | some (bytes, rest) =>
      set rest
      match Utf8.decode bytes with
      | .ok s => return s
      | .error fault => throw (.notUtf8 fault)

/-- `n` values one after the other, after those `taken` before (in reverse). -/
def readMany {α : Type} (f : Format α) : Nat → List α → Read (List α)
  | 0, taken => return taken.reverse
  | n + 1, taken => do
    let a ← f.read
    readMany f n (a :: taken)

def list {α : Type} (f : Format α) : Format (List α) where
  write l := length.write l.length ++ l.flatMap f.write
  read := do
    let n ← length.read
    readMany f n []

def option {α : Type} (f : Format α) : Format (Option α) where
  write
    | none => [0]
    | some a => 1 :: f.write a
  read := do
    match ← uint8.read with
    | 0 => return none
    | 1 => return some (← f.read)
    | other => throw (.badOption other)

def pair {α β : Type} (f : Format α) (g : Format β) : Format (α × β) where
  write := fun (a, b) => f.write a ++ g.write b
  read := do
    let a ← f.read
    let b ← g.read
    return (a, b)

/-- The pairs with increasing keys; of pairs with one key the last one counts. -/
def sortByKey {β : Type} (pairs : List (String × β)) : List (String × β) :=
  pairs.foldl (fun sorted pair => place pair sorted) []
where
  /-- Puts a pair where its key belongs, in place of one with the same key. -/
  place (pair : String × β) : List (String × β) → List (String × β)
    | [] => [pair]
    | other :: rest =>
      if pair.1 < other.1 then pair :: other :: rest
      else if pair.1 = other.1 then pair :: rest
      else other :: place pair rest

/-- A map keyed by texts, as the list of its pairs in the order of the keys. -/
def sortedMap {β : Type} (f : Format β) : Format (List (String × β)) where
  write pairs := (list (pair string f)).write (sortByKey pairs)
  read := do return sortByKey (← (list (pair string f)).read)

/-- The number of an alternative, out of `count`. -/
def variant (count : Nat) : Format Nat where
  write n := LittleEndian.encode 4 n
  read := do
    let n := LittleEndian.decode (← take 4)
    if n < count then return n else throw (.badVariant n count)

/-- The value at the front of the bytes; what follows it does not matter. -/
def decode {α : Type} (f : Format α) (bytes : Bytes) : Except Error α :=
  Prod.fst <$> f.read bytes

end Format

end Spillway.Wire
