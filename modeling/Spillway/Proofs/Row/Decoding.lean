import Mathlib.Data.List.Forall2
import Mathlib.Tactic.MkIffOfInductiveProp
import Spillway.Bytes.EndianLaws
import Spillway.Proofs.Ieee
import Spillway.Row.Encoding

/-!
# Rows read back

A row has an encoding exactly when it conforms to the schema, and reading the encoding gives the row,
except that all values that are no number come back as the one that stands for them
(`decode_encode_row`).

Each reader takes exactly the bytes of its value from the front, whatever follows them: integers and
floating-point numbers have a fixed width, and text and bytes end at the first 0 that no 255 follows
(`unescape_escape`).
-/

namespace Spillway

/-! ## Rows of a schema -/

/-- A field takes values of its type, and `null` unless the value is required. -/
@[mk_iff]
structure Field.Admits (field : Field) (datum : Datum) : Prop where
  fits : datum.fits field.type = true
  present : datum = .null → field.required = false

/-- The row has one value for each field, and each field admits its value. -/
def Row.Conforms (schema : Schema) (row : Row) : Prop :=
  List.Forall₂ Field.Admits schema.fields row.values

/-- The value as its encoding keeps it: one value stands for all that are no number. -/
def Datum.canonical : Datum → Datum
  | .float bits => .float (if Ieee.isNan Ieee.single bits.toNat then Row.singleNan else bits)
  | .double bits => .double (if Ieee.isNan Ieee.double bits.toNat then Row.doubleNan else bits)
  | datum => datum

def Row.canonical (row : Row) : Row := ⟨row.values.map Datum.canonical⟩

namespace Row

/-! ## Numbers -/

theorem flipSign_flipSign {w : Nat} (bits : BitVec w) : flipSign (flipSign bits) = bits := by
  rw [flipSign, flipSign, BitVec.xor_assoc, BitVec.xor_self, BitVec.xor_zero]

/-- A word that is written in enough bytes is read back. -/
theorem ofNat_decode {w width : Nat} (h : 2 ^ w = 256 ^ width) (bits : BitVec w) :
    BitVec.ofNat w (BigEndian.decode (BigEndian.encode width bits.toNat)) = bits := by
  rw [BigEndian.decode_encode, ← h]
  simp

theorem canonicalSingle_eq (bits : UInt32) :
    canonicalSingle bits = if Ieee.isNan Ieee.single bits.toNat then singleNan else bits := by
  have hnan : bits &&& 0x7FFFFFFF > 0x7F800000 ↔ Ieee.isNan Ieee.single bits.toNat = true := by
    rw [Ieee.isNan_iff_and]
    exact UInt32.lt_iff_toNat_lt
  simp only [canonicalSingle, hnan]

theorem canonicalDouble_eq (bits : UInt64) :
    canonicalDouble bits = if Ieee.isNan Ieee.double bits.toNat then doubleNan else bits := by
  have hnan : bits &&& 0x7FFFFFFFFFFFFFFF > 0x7FF0000000000000 ↔
      Ieee.isNan Ieee.double bits.toNat = true := by
    rw [Ieee.isNan_iff_and]
    exact UInt64.lt_iff_toNat_lt
  simp only [canonicalDouble, hnan]

@[simp] theorem length_encodeInt (value : Int32) : (encodeInt value).length = 4 := by
  simp [encodeInt]

@[simp] theorem length_encodeLong (value : Int64) : (encodeLong value).length = 8 := by
  simp [encodeLong]

@[simp] theorem length_encodeFloat (bits : UInt32) : (encodeFloat bits).length = 4 := by
  simp [encodeFloat]

@[simp] theorem length_encodeDouble (bits : UInt64) : (encodeDouble bits).length = 8 := by
  simp [encodeDouble]

@[simp] theorem decodeInt_encodeInt (value : Int32) : decodeInt (encodeInt value) = value := by
  rw [decodeInt, encodeInt, ofNat_decode (by decide), flipSign_flipSign]
  rfl

@[simp] theorem decodeLong_encodeLong (value : Int64) : decodeLong (encodeLong value) = value := by
  rw [decodeLong, encodeLong, ofNat_decode (by decide), flipSign_flipSign]
  rfl

@[simp] theorem decodeFloat_encodeFloat (bits : UInt32) :
    decodeFloat (encodeFloat bits) = canonicalSingle bits := by
  rw [decodeFloat, encodeFloat, ofNat_decode (by decide), Ieee.ofOrder_order (by decide)]

@[simp] theorem decodeDouble_encodeDouble (bits : UInt64) :
    decodeDouble (encodeDouble bits) = canonicalDouble bits := by
  rw [decodeDouble, encodeDouble, ofNat_decode (by decide), Ieee.ofOrder_order (by decide)]

/-! ## Text and bytes -/

theorem escape_zero (bytes : Bytes) : escape (0 :: bytes) = 0 :: 255 :: escape bytes := rfl

theorem escape_cons {b : UInt8} (hb : b ≠ 0) (bytes : Bytes) :
    escape (b :: bytes) = b :: escape bytes := by
  simp [escape, hb]

theorem unescapeFrom_escape (taken bytes rest : Bytes) :
    unescapeFrom taken (escape bytes ++ rest) = .ok (taken.reverse ++ bytes, rest) := by
  induction bytes generalizing taken with
  | nil => simp [escape, unescapeFrom]
  | cons b bytes ih =>
    by_cases hb : b = 0
    · subst hb
      rw [escape_zero]
      simp [unescapeFrom, ih]
    · rw [escape_cons hb]
      simp [unescapeFrom, hb, ih]

/-- The reader stops behind the mark at the end, whatever bytes come after it. -/
theorem unescape_escape (bytes rest : Bytes) :
    unescape (escape bytes ++ rest) = .ok (bytes, rest) :=
  unescapeFrom_escape [] bytes rest

/-! ## Readers -/

/-- A reader that runs after another goes on with the bytes that one left. -/
@[simp] theorem bind_apply {α β : Type} (read : Decode α) (next : α → Decode β) (bytes : Bytes) :
    (read >>= next) bytes =
      match read bytes with
      | .ok (a, rest) => next a rest
      | .error e => .error e := by
  show (read bytes).bind _ = _
  cases read bytes <;> rfl

@[simp] theorem map_apply {α β : Type} (read : Decode α) (f : α → β) (bytes : Bytes) :
    (f <$> read) bytes =
      match read bytes with
      | .ok (a, rest) => .ok (f a, rest)
      | .error e => .error e := by
  rw [map_eq_pure_bind, bind_apply]
  rfl

@[simp] theorem pure_apply {α : Type} (a : α) (bytes : Bytes) :
    (pure a : Decode α) bytes = .ok (a, bytes) := rfl

@[simp] theorem throw_apply {α : Type} (e : DecodeError) (bytes : Bytes) :
    (throw e : Decode α) bytes = .error e := rfl

@[simp] theorem takeBytes_append {n : Nat} {head : Bytes} (h : head.length = n) (rest : Bytes) :
    takeBytes n (head ++ rest) = .ok (head, rest) := by
  subst h
  rw [takeBytes, Bytes.split?_append]

theorem decodeField_present (field : Field) (rest : Bytes) :
    decodeField field (1 :: rest) = decodePresent field rest := rfl

/-! ## Values -/

/-- Reading an encoded value takes its own bytes only. -/
theorem decodeField_encodeDatum {field : Field} {datum : Datum} (h : datum.fits field.type = true)
    (rest : Bytes) :
    decodeField field (encodeDatum datum ++ rest) = .ok (datum.canonical, rest) := by
  obtain ⟨id, name, type, required⟩ := field
  cases datum with
  | null => rfl
  | boolean value => cases type <;> cases h; cases value <;> rfl
  | int value | long value | date value | timestamp value =>
    cases type <;> cases h
    simp [encodeDatum, decodeField_present, decodePresent, Datum.canonical]
  | float bits =>
    cases type <;> cases h
    simp [encodeDatum, decodeField_present, decodePresent, Datum.canonical, canonicalSingle_eq]
  | double bits =>
    cases type <;> cases h
    simp [encodeDatum, decodeField_present, decodePresent, Datum.canonical, canonicalDouble_eq]
  | string text =>
    cases type <;> cases h
    simp [encodeDatum, decodeField_present, decodePresent, Datum.canonical, unescape_escape,
      Utf8.decode_encode]
  | binary bytes =>
    cases type <;> cases h
    simp [encodeDatum, decodeField_present, decodePresent, Datum.canonical, unescape_escape]

theorem decodeFields_flatMap {fields : List Field} {data : List Datum}
    (h : List.Forall₂ Field.Admits fields data) (rest : Bytes) :
    decodeFields fields (data.flatMap encodeDatum ++ rest) =
      .ok (data.map Datum.canonical, rest) := by
  induction h with
  | nil => rfl
  | cons hd _ ih =>
    simp [decodeFields, List.append_assoc, decodeField_encodeDatum hd.fits, ih]

/-! ## Rows -/

theorem encodeField_eq_ok_iff {field : Field} {datum : Datum} {bytes : Bytes} :
    encodeField field datum = .ok bytes ↔ field.Admits datum ∧ bytes = encodeDatum datum := by
  have hnull : datum.isNull = true ↔ datum = .null := by cases datum <;> simp [Datum.isNull]
  simp only [encodeField, Field.admits_iff, Bool.and_eq_true, hnull]
  grind

theorem encodeFields_eq_ok_iff {fields : List Field} {data : List Datum} {bytes : Bytes}
    (h : data.length = fields.length) :
    encodeFields fields data = .ok bytes ↔
      List.Forall₂ Field.Admits fields data ∧ bytes = data.flatMap encodeDatum := by
  induction fields generalizing data bytes with
  | nil =>
    rw [List.eq_nil_of_length_eq_zero h]
    simp [encodeFields, pure, Except.pure, eq_comm]
  | cons field fields ih =>
    cases data with
    | nil => cases h
    | cons datum data =>
      have ih (tail : Bytes) : encodeFields fields data = .ok tail ↔
          List.Forall₂ Field.Admits fields data ∧ tail = data.flatMap encodeDatum :=
        ih (Nat.succ.inj h)
      have hboth : encodeFields (field :: fields) (datum :: data) = .ok bytes ↔ ∃ head tail,
          encodeField field datum = .ok head ∧ encodeFields fields data = .ok tail ∧
            head ++ tail = bytes := by
        rw [encodeFields]
        cases encodeField field datum <;> cases encodeFields fields data <;>
          simp [bind, Except.bind, pure, Except.pure]
      simp only [hboth, encodeField_eq_ok_iff, ih, List.forall₂_cons, List.flatMap_cons]
      grind

/-- A row has an encoding exactly when it conforms to the schema: the encodings of its values. -/
theorem encode_eq_ok_iff {schema : Schema} {row : Row} {bytes : Bytes} :
    encode schema row = .ok bytes ↔
      row.Conforms schema ∧ bytes = row.values.flatMap encodeDatum := by
  unfold encode Conforms
  split
  · next h => exact encodeFields_eq_ok_iff h
  · next h => simpa using fun hadmits => absurd hadmits.length_eq.symm h

theorem decode_flatMap {schema : Schema} {row : Row} (h : row.Conforms schema) :
    decode schema (row.values.flatMap encodeDatum) = .ok row.canonical := by
  have hfields := decodeFields_flatMap h []
  rw [List.append_nil] at hfields
  simp [decode, hfields, bind, Except.bind, pure, Except.pure, canonical]

/-- Exactly the rows that conform to the schema have an encoding, and it is read back as the row, with
one value for all that are no number. -/
theorem decode_encode_row (schema : Schema) (row : Row) :
    ((∃ bytes, encode schema row = .ok bytes) ↔ row.Conforms schema) ∧
      ∀ bytes, encode schema row = .ok bytes → decode schema bytes = .ok row.canonical := by
  refine ⟨?_, fun bytes hbytes => ?_⟩
  · simp [encode_eq_ok_iff]
  · obtain ⟨hconforms, rfl⟩ := encode_eq_ok_iff.1 hbytes
    exact decode_flatMap hconforms

/-- Fields of all the shapes that encodings have. -/
def sampleSchema : Schema :=
  ⟨[⟨1, "flag", .boolean, true⟩, ⟨2, "count", .int, false⟩, ⟨3, "name", .string, true⟩,
    ⟨4, "weight", .float, true⟩, ⟨5, "blob", .binary, true⟩, ⟨6, "time", .timestamp, true⟩]⟩

/-- A row with a missing value, with zero bytes in a text and in bytes, and with a negative value that
is no number. -/
def sampleRow : Row :=
  ⟨[.boolean true, .null, .string "a\x00é", .float 0xFF800001, .binary [0, 255, 0, 1],
    .timestamp (-1)]⟩

def sampleBytes : Bytes :=
  [1, 1, 0, 1, 97, 0, 255, 195, 169, 0, 1, 1, 255, 192, 0, 0, 1, 0, 255, 255, 0, 255, 1, 0, 1, 1, 127,
    255, 255, 255, 255, 255, 255, 255]

theorem decode_encode_row_sample :
    sampleRow.Conforms sampleSchema ∧ decode sampleSchema sampleBytes =
      .ok ⟨[.boolean true, .null, .string "a\x00é", .float 0x7FC00000, .binary [0, 255, 0, 1],
        .timestamp (-1)]⟩ := by
  have hencode : encode sampleSchema sampleRow = .ok sampleBytes := by decide +kernel
  obtain ⟨hiff, hdecode⟩ := decode_encode_row sampleSchema sampleRow
  exact ⟨hiff.1 ⟨_, hencode⟩, hdecode _ hencode⟩

end Row

end Spillway
