import Spillway.Row.Encoding
import Spillway.Wire.Record

/-!
# Codecs

A codec turns the keys or values of a map into bytes and back; both ways may fail. Two keys of a
map are the same when their bytes are.
-/

namespace Spillway

/-- Why a value has no bytes or bytes hold no value. -/
inductive CodecError where
  | rowEncode (error : Row.EncodeError)
  | rowDecode (error : Row.DecodeError)
  | wire (error : Wire.Error)
  /-- The value is of a kind that the codec is not for. -/
  | otherKind
  deriving DecidableEq

namespace CodecError

def message : CodecError → String
  | rowEncode error => error.message
  | rowDecode error => error.message
  | wire error => error.message
  | otherKind => "value of another kind"

end CodecError

structure Codec (α : Type) where
  encode : α → Except CodecError Bytes
  decode : Bytes → Except CodecError α

namespace Codec

/-- Bytes as they are. -/
def raw : Codec Bytes where
  encode := .ok
  decode := .ok

/-- Values in a wire format; bytes after the value are ignored. -/
def ofFormat {α : Type} (f : Wire.Format α) : Codec α where
  encode a := .ok (f.write a)
  decode bytes := (f.decode bytes).mapError .wire

/-- Rows of a schema in their ordered encoding. -/
def ofSchema (schema : Schema) : Codec Row where
  encode row := (Row.encode schema row).mapError .rowEncode
  decode bytes := (Row.decode schema bytes).mapError .rowDecode

/-- The codec of a type that holds, among others, the values of another. -/
def embed {α β : Type} (codec : Codec α) (make : α → β) (back : β → Option α) : Codec β where
  encode b :=
    match back b with
    | some a => codec.encode a
    | none => .error .otherKind
  decode bytes := make <$> codec.decode bytes

end Codec

end Spillway
