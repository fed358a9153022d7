import Spillway.Row
import Spillway.Decimal.Ieee
import Spillway.Text.Quoted

/-!
# Rows as text

The text of field types, values and rows in messages, and numeric equality of values.
-/

namespace Spillway

namespace FieldType

def text : FieldType → String
  | boolean => "Boolean"
  | int => "Int"
  | long => "Long"
  | float => "Float"
  | double => "Double"
  | date => "Date"
  | timestamp => "Timestamp"
  | string => "String"
  | binary => "Binary"

end FieldType

namespace Datum

/-- Numbers from `10 ^ -4` up to `10 ^ 16` are written without an exponent. -/
def numberStyle : Decimal.Style := ⟨-3, 16⟩

def text : Datum → String
  | null => "Null"
  | boolean value => s!"Boolean({value})"
  | int value => s!"Int({value.toInt})"
  | long value => s!"Long({value.toInt})"
  | float bits => s!"Float({Ieee.text Ieee.single numberStyle bits.toNat})"
  | double bits => s!"Double({Ieee.text Ieee.double numberStyle bits.toNat})"
  | date days => s!"Date({days.toInt})"
  | timestamp micros => s!"Timestamp({micros.toInt})"
  | string text => s!"String({Text.quoted text})"
  | binary bytes => s!"Binary({Text.bracketed (bytes.map toString)})"

/-- Equality of values in which floating-point numbers are compared as numbers: what is no number
differs from itself, and the two zeros are equal. -/
def numericEq : Datum → Datum → Bool
  | float a, float b => Ieee.numericEq Ieee.single a.toNat b.toNat
  | double a, double b => Ieee.numericEq Ieee.double a.toNat b.toNat
  | a, b => a = b

end Datum

namespace Row

def text (row : Row) : String :=
  Text.record "StructValue" [("values", Text.bracketed (row.values.map Datum.text))]

def numericEq (a b : Row) : Bool :=
  a.values.length = b.values.length && (a.values.zip b.values).all fun (x, y) => x.numericEq y

end Row

end Spillway
