import Spillway.Row.Text
import Spillway.Bytes.Endian
import Spillway.Text.Utf8

/-!
# Ordered encoding of rows

Rows of one schema become byte strings whose order is the order of the rows, field by field:

* a missing value is the byte 0, any other is the byte 1 and then its own bytes;
* a boolean is one byte, 0 or 1;
* an integer is written most significant byte first, with its sign bit flipped;
* a floating-point number is written most significant byte first, as the bits of its place in the
  total order; all values that are no number are written as one;
* text and bytes are written as they are, with a byte 255 after each byte 0, and end in 0 and 1.

`encode` refuses rows that the schema does not allow, and `decode` refuses all bytes that have not
this form.
-/

namespace Spillway.Row

/-! ## Numbers -/

/-- The bits of an integer that compare as unsigned numbers; the same change takes them back. -/
def flipSign {w : Nat} (bits : BitVec w) : BitVec w :=
  bits ^^^ BitVec.intMin w

/-- The bits that stand for every single precision value that is no number. -/
def singleNan : UInt32 := 0x7FC00000

/-- The bits that stand for every double precision value that is no number. -/
def doubleNan : UInt64 := 0x7FF8000000000000

def canonicalSingle (bits : UInt32) : UInt32 :=
  if bits &&& 0x7FFFFFFF > 0x7F800000 then singleNan else bits

def canonicalDouble (bits : UInt64) : UInt64 :=
  if bits &&& 0x7FFFFFFFFFFFFFFF > 0x7FF0000000000000 then doubleNan else bits

def encodeInt (value : Int32) : Bytes :=
  BigEndian.encode 4 (flipSign value.toBitVec).toNat

def encodeLong (value : Int64) : Bytes :=
  BigEndian.encode 8 (flipSign value.toBitVec).toNat

def encodeFloat (bits : UInt32) : Bytes :=
  BigEndian.encode 4 (Ieee.order (canonicalSingle bits).toBitVec).toNat

def encodeDouble (bits : UInt64) : Bytes :=
  BigEndian.encode 8 (Ieee.order (canonicalDouble bits).toBitVec).toNat

def decodeInt (bytes : Bytes) : Int32 :=
  ⟨⟨flipSign (BitVec.ofNat 32 (BigEndian.decode bytes))⟩⟩

def decodeLong (bytes : Bytes) : Int64 :=
  ⟨⟨flipSign (BitVec.ofNat 64 (BigEndian.decode bytes))⟩⟩

def decodeFloat (bytes : Bytes) : UInt32 :=
  ⟨Ieee.ofOrder (BitVec.ofNat 32 (BigEndian.decode bytes))⟩

def decodeDouble (bytes : Bytes) : UInt64 :=
  ⟨Ieee.ofOrder (BitVec.ofNat 64 (BigEndian.decode bytes))⟩

/-! ## Writing -/

/-- Bytes with every 0 marked by a 255 after it, closed by 0 and 1. -/
def escape (bytes : Bytes) : Bytes :=
  bytes.flatMap (fun b => if b = 0 then [0, 255] else [b]) ++ [0, 1]

def encodeDatum : Datum → Bytes
  | .null => [0]
  | .boolean value => [1, if value then 1 else 0]
  | .int value => 1 :: encodeInt value
  | .long value => 1 :: encodeLong value
  | .float bits => 1 :: encodeFloat bits
  | .double bits => 1 :: encodeDouble bits
  | .date days => 1 :: encodeInt days
  | .timestamp micros => 1 :: encodeLong micros
  | .string text => 1 :: escape (Utf8.encode text)
  | .binary bytes => 1 :: escape bytes

/-- Why a row has no encoding. -/
inductive EncodeError where
  | fieldCount (values fields : Nat)
  | missingRequired (field : String)
  | wrongType (field : String) (expected : FieldType) (found : Datum)
  deriving DecidableEq

namespace EncodeError

def message : EncodeError → String
  | fieldCount values fields =>
    s!"row has {values} values but the key type has {fields} fields"
  | missingRequired field => s!"required field {field} is null"
  | wrongType field expected found => s!"field {field} expects {expected.text}, got {found.text}"

end EncodeError

/-- One value of a field, unless it is missing but required or of the wrong type. -/
def encodeField (field : Field) (datum : Datum) : Except EncodeError Bytes :=
  if datum.isNull && field.required then .error (.missingRequired field.name)
  else if datum.fits field.type then .ok (encodeDatum datum)
  else .error (.wrongType field.name field.type datum)

/-- The values of fields, one after the other; the first field at fault decides the error. -/
def encodeFields : List Field → List Datum → Except EncodeError Bytes
  | field :: fields, datum :: data => do
    let head ← encodeField field datum
    let tail ← encodeFields fields data
    return head ++ tail
  | _, _ => return []

def encode (schema : Schema) (row : Row) : Except EncodeError Bytes :=
  if row.values.length = schema.fields.length then encodeFields schema.fields row.values
  else .error (.fieldCount row.values.length schema.fields.length)

/-! ## Reading -/

/-- Why bytes are no row. -/
inductive DecodeError where
  | truncated
  | badMarker (marker : UInt8) (field : String)
  | badBoolean (byte : UInt8) (field : String)
  | badEscape (byte : UInt8)
  | notUtf8 (field : String) (fault : Utf8.Fault)
  | trailing (count : Nat)
  deriving DecidableEq

namespace DecodeError

def message : DecodeError → String
  | truncated => "struct key truncated"
  | badMarker marker field =>
    s!"invalid presence marker 0x{Numeral.hex 2 marker.toNat} for field {field}"
  | badBoolean byte field => s!"invalid boolean byte 0x{Numeral.hex 2 byte.toNat} for field {field}"
  | badEscape byte => s!"invalid escape sequence 0x00 0x{Numeral.hex 2 byte.toNat}"
  | notUtf8 field fault => s!"field {field} is not UTF-8: {fault.message}"
  | trailing count => s!"{count} trailing bytes after struct key"

end DecodeError

/-- Readers take bytes from the front of what is left of a key. -/
abbrev Decode := StateT Bytes (Except DecodeError)

def takeByte : Decode UInt8
  | [] => .error .truncated
  | b :: rest => .ok (b, rest)

def takeBytes (n : Nat) : Decode Bytes := fun bytes =>
  match Bytes.split? n bytes with
  | some (head, rest) => .ok (head, rest)
  | none => .error .truncated

/-- Bytes up to the closing 0 and 1, without their marks, after those `taken` before (in reverse). -/
def unescapeFrom (taken : Bytes) : Decode Bytes
  | [] => .error .truncated
  | 0 :: [] => .error .truncated
  | 0 :: 255 :: rest => unescapeFrom (0 :: taken) rest
  | 0 :: 1 :: rest => .ok (taken.reverse, rest)
  | 0 :: b :: _ => .error (.badEscape b)
  | b :: rest => unescapeFrom (b :: taken) rest

def unescape : Decode Bytes := unescapeFrom []

/-- The bytes of a value that is present. -/
def decodePresent (field : Field) : Decode Datum :=
  match field.type with
  | .boolean => do
    match ← takeByte with
    | 0 => return .boolean false
    | 1 => return .boolean true
    | other => throw (.badBoolean other field.name)
  | .int => return .int (decodeInt (← takeBytes 4))
  | .long => return .long (decodeLong (← takeBytes 8))
  | .float => return .float (decodeFloat (← takeBytes 4))
  | .double => return .double (decodeDouble (← takeBytes 8))
  | .date => return .date (decodeInt (← takeBytes 4))
  | .timestamp => return .timestamp (decodeLong (← takeBytes 8))
  | .string => do
    match Utf8.decode (← unescape) with
    | .ok text => return .string text
    | .error fault => throw (.notUtf8 field.name fault)
  | .binary => return .binary (← unescape)

def decodeField (field : Field) : Decode Datum := do
  match ← takeByte with
  | 0 => return .null
  | 1 => decodePresent field
  | other => throw (.badMarker other field.name)

def decodeFields : List Field → Decode (List Datum)
  | [] => return []
  | field :: fields => do
    let datum ← decodeField field
    let data ← decodeFields fields
    return datum :: data

/-- The row that the bytes encode; nothing may be left over. Missing values are accepted in every
field. -/
def decode (schema : Schema) (bytes : Bytes) : Except DecodeError Row := do
  let (data, rest) ← decodeFields schema.fields bytes
  if rest = [] then return ⟨data⟩ else throw (.trailing rest.length)

end Spillway.Row
