import Spillway.Bytes

/-!
# Rows

A row is a list of values; a schema says which kind of value each field holds and whether it may
be missing. Floating-point values are kept as their bits, so that the sign of zero and the
payload of values that are no number stay what they are.
-/

namespace Spillway

/-- The kind of value in a field. Dates are days and timestamps microseconds since the epoch. -/
inductive FieldType where
  | boolean
  | int
  | long
  | float
  | double
  | date
  | timestamp
  | string
  | binary
  deriving DecidableEq, Repr

structure Field where
  id : Int32
  name : String
  type : FieldType
  required : Bool
  deriving DecidableEq

/-- The fields of a row, in order. -/
structure Schema where
  fields : List Field
  deriving DecidableEq

/-- One value. `float` and `double` hold the bits of the number. -/
inductive Datum where
  | null
  | boolean (value : Bool)
  | int (value : Int32)
  | long (value : Int64)
  | float (bits : UInt32)
  | double (bits : UInt64)
  | date (days : Int32)
  | timestamp (micros : Int64)
  | string (text : String)
  | binary (bytes : Bytes)
  deriving DecidableEq

namespace Datum

def isNull : Datum → Bool
  | null => true
  | _ => false

/-- Whether a field of this type can hold the value; every field can hold `null` here. -/
def fits : Datum → FieldType → Bool
  | null, _ => true
  | boolean _, .boolean => true
  | int _, .int => true
  | long _, .long => true
  | float _, .float => true
  | double _, .double => true
  | date _, .date => true
  | timestamp _, .timestamp => true
  | string _, .string => true
  | binary _, .binary => true
  | _, _ => false

/-- The value, or `null` when there is none. -/
def ofOption : Option Datum → Datum
  | some d => d
  | none => null

end Datum

structure Row where
  values : List Datum
  deriving DecidableEq

end Spillway
