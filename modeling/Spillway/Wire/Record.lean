import Spillway.Row
import Spillway.Wire

/-!
# Wire formats of schemas and rows

Field types and values are alternatives in the order of their declarations; fields are their parts
in order; schemas and rows are lists.
-/

namespace Spillway.Wire.Format

/-- Field types by their numbers. -/
def fieldTypes : List FieldType :=
  [.boolean, .int, .long, .float, .double, .date, .timestamp, .string, .binary]

def fieldType : Format FieldType where
  write t := LittleEndian.encode 4 (fieldTypes.idxOf t)
  read := do
    let n ← (variant fieldTypes.length).read
    match fieldTypes[n]? with
    | some t => return t
    | none => throw (.badVariant n fieldTypes.length)

def field : Format Field :=
  (pair int32 (pair string (pair fieldType bool))).map
    (fun (id, name, type, required) => ⟨id, name, type, required⟩)
    (fun f => (f.id, f.name, f.type, f.required))

def schema : Format Schema := (list field).map Schema.mk Schema.fields

/-- Bytes, one by one. -/
def bytes : Format Bytes := list uint8

/-- The number of an alternative and then its value. -/
def tagged {α : Type} (n : Nat) (f : Format α) (a : α) : Bytes :=
  LittleEndian.encode 4 n ++ f.write a

def datum : Format Datum where
  write
    | .null => LittleEndian.encode 4 0
    | .boolean value => tagged 1 bool value
    | .int value => tagged 2 int32 value
    | .long value => tagged 3 int64 value
    | .float bits => tagged 4 uint32 bits
    | .double bits => tagged 5 uint64 bits
    | .date days => tagged 6 int32 days
    | .timestamp micros => tagged 7 int64 micros
    | .string text => tagged 8 string text
    | .binary value => tagged 9 bytes value
  read := do
    match ← (variant 10).read with
    | 0 => return .null
    | 1 => return .boolean (← bool.read)
    | 2 => return .int (← int32.read)
    | 3 => return .long (← int64.read)
    | 4 => return .float (← uint32.read)
    | 5 => return .double (← uint64.read)
    | 6 => return .date (← int32.read)
    | 7 => return .timestamp (← int64.read)
    | 8 => return .string (← string.read)
    | 9 => return .binary (← bytes.read)
    | n => throw (.badVariant n 10)

def row : Format Row := (list datum).map Row.mk Row.values

end Spillway.Wire.Format
