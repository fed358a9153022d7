import Spillway.Proofs.Row.Decoding

/-!
# The bytes that are rows

Bytes are read as a row exactly when they spell it (`decode_eq_ok_iff`), so no two byte strings are
read as one row. All others are refused, for the first thing that is wrong with them
(`decode_eq_error_iff`). A row is spelled as it is encoded, but readers also take rows that have no
encoding, with a missing value where one is required, and values that are no number with all the bits
that such values can have.
-/

namespace Spillway

/-- No number, by other bits than those that stand for all such values. -/
def Datum.IsStrayNan : Datum → Prop
  | .float bits => Ieee.isNan Ieee.single bits.toNat = true ∧ bits ≠ Row.singleNan
  | .double bits => Ieee.isNan Ieee.double bits.toNat = true ∧ bits ≠ Row.doubleNan
  | _ => False

instance : DecidablePred Datum.IsStrayNan := fun datum =>
  match datum with
  | .float _ | .double _ => inferInstanceAs (Decidable (_ ∧ _))
  | .null | .boolean _ | .int _ | .long _ | .date _ | .timestamp _ | .string _ | .binary _ =>
    .isFalse id

/-- How many bytes a value takes, if all values of the type take as many. -/
def FieldType.width? : FieldType → Option Nat
  | .boolean => some 1
  | .int | .float | .date => some 4
  | .long | .double | .timestamp => some 8
  | .string | .binary => none

namespace Row

/-- One value of its type, or none, for each field. -/
def Matches (schema : Schema) (row : Row) : Prop :=
  List.Forall₂ (fun field datum => datum.fits field.type = true) schema.fields row.values

/-- The bytes that are read as a value. -/
def spell : Datum → Bytes
  | .float bits => 1 :: BigEndian.encode 4 (Ieee.order bits.toBitVec).toNat
  | .double bits => 1 :: BigEndian.encode 8 (Ieee.order bits.toBitVec).toNat
  | datum => encodeDatum datum

/-- Bytes with every 0 marked by a 255 after it, not closed. -/
def marked (bytes : Bytes) : Bytes := bytes.flatMap fun b => if b = 0 then [0, 255] else [b]

/-! ## What is wrong with bytes -/

/-- Bytes that end before they are closed, or have a byte behind a 0 that means nothing there. -/
inductive Unclosed : Bytes → DecodeError → Prop
  | ended (bytes : Bytes) : Unclosed (marked bytes) .truncated
  | half (bytes : Bytes) : Unclosed (marked bytes ++ [0]) .truncated
  | escape (bytes : Bytes) (b : UInt8) (rest : Bytes) (hclose : b ≠ 1) (hzero : b ≠ 255) :
      Unclosed (marked bytes ++ 0 :: b :: rest) (.badEscape b)

/-- Bytes that do not start with a value of a field. -/
inductive BadValue (field : Field) : Bytes → DecodeError → Prop
  | ended : BadValue field [] .truncated
  | marker (b : UInt8) (rest : Bytes) (hnull : b ≠ 0) (hpresent : b ≠ 1) :
      BadValue field (b :: rest) (.badMarker b field.name)
  | short (width : Nat) (rest : Bytes) (hwidth : field.type.width? = some width)
      (hshort : rest.length < width) : BadValue field (1 :: rest) .truncated
  | boolean (b : UInt8) (rest : Bytes) (htype : field.type = .boolean) (hfalse : b ≠ 0)
      (htrue : b ≠ 1) : BadValue field (1 :: b :: rest) (.badBoolean b field.name)
  | unclosed (rest : Bytes) (e : DecodeError) (hwidth : field.type.width? = none)
      (hunclosed : Unclosed rest e) : BadValue field (1 :: rest) e
  | notUtf8 (bytes rest : Bytes) (fault : Utf8.Fault) (htype : field.type = .string)
      (hfault : Utf8.decode bytes = .error fault) :
      BadValue field (1 :: (escape bytes ++ rest)) (.notUtf8 field.name fault)

/-- Bytes that do not spell values of some fields: behind the values that they do spell there is none of
the next field, or there are bytes when there is no field any more. -/
inductive Malformed : List Field → Bytes → DecodeError → Prop
  | trailing (bytes : Bytes) (hmore : bytes ≠ []) : Malformed [] bytes (.trailing bytes.length)
  | value (field : Field) (fields : List Field) (bytes : Bytes) (e : DecodeError)
      (hbad : BadValue field bytes e) : Malformed (field :: fields) bytes e
  | later (field : Field) (fields : List Field) (datum : Datum) (bytes : Bytes) (e : DecodeError)
      (hfits : datum.fits field.type = true) (hlater : Malformed fields bytes e) :
      Malformed (field :: fields) (spell datum ++ bytes) e

/-! ## Numbers -/

/-- A word that fills its bytes is written back. -/
theorem encode_ofNat {w width : Nat} (h : 2 ^ w = 256 ^ width) {bytes : Bytes}
    (hlength : bytes.length = width) :
    BigEndian.encode width (BitVec.ofNat w (BigEndian.decode bytes)).toNat = bytes := by
  have hlt := LittleEndian.decode_lt bytes.reverse
  rw [List.length_reverse, hlength, ← h] at hlt
  rw [BitVec.toNat_ofNat, BigEndian.decode, Nat.mod_eq_of_lt hlt, ← BigEndian.decode, ← hlength,
    BigEndian.encode_decode]

theorem encodeInt_decodeInt {bytes : Bytes} (h : bytes.length = 4) :
    encodeInt (decodeInt bytes) = bytes := by
  show BigEndian.encode 4 (flipSign (flipSign _)).toNat = bytes
  rw [flipSign_flipSign, encode_ofNat (by decide) h]

theorem encodeLong_decodeLong {bytes : Bytes} (h : bytes.length = 8) :
    encodeLong (decodeLong bytes) = bytes := by
  show BigEndian.encode 8 (flipSign (flipSign _)).toNat = bytes
  rw [flipSign_flipSign, encode_ofNat (by decide) h]

theorem spell_decodeFloat {bytes : Bytes} (h : bytes.length = 4) :
    spell (.float (decodeFloat bytes)) = 1 :: bytes := by
  show 1 :: BigEndian.encode 4 (Ieee.order (Ieee.ofOrder _)).toNat = 1 :: bytes
  rw [Ieee.order_ofOrder (by decide), encode_ofNat (by decide) h]

theorem spell_decodeDouble {bytes : Bytes} (h : bytes.length = 8) :
    spell (.double (decodeDouble bytes)) = 1 :: bytes := by
  show 1 :: BigEndian.encode 8 (Ieee.order (Ieee.ofOrder _)).toNat = 1 :: bytes
  rw [Ieee.order_ofOrder (by decide), encode_ofNat (by decide) h]

/-! ## Text and bytes -/

theorem marked_zero (bytes : Bytes) : marked (0 :: bytes) = 0 :: 255 :: marked bytes := rfl

theorem marked_cons {b : UInt8} (hb : b ≠ 0) (bytes : Bytes) :
    marked (b :: bytes) = b :: marked bytes := by
  simp [marked, hb]

/-- Bytes that do not close are still marked in front of what is wrong with them. -/
theorem Unclosed.zero {bytes : Bytes} {e : DecodeError} (h : Unclosed bytes e) :
    Unclosed (0 :: 255 :: bytes) e := by
  cases h with
  | ended bytes => exact .ended (0 :: bytes)
  | half bytes => exact .half (0 :: bytes)
  | escape bytes b rest hclose hzero => exact .escape (0 :: bytes) b rest hclose hzero

theorem Unclosed.cons {bytes : Bytes} {e : DecodeError} {b : UInt8} (hb : b ≠ 0)
    (h : Unclosed bytes e) : Unclosed (b :: bytes) e := by
  cases h with
  | ended bytes => exact marked_cons hb bytes ▸ .ended (b :: bytes)
  | half bytes =>
    have hhalf := Unclosed.half (b :: bytes)
    rwa [marked_cons hb] at hhalf
  | escape bytes c rest hclose hzero =>
    have hescape := Unclosed.escape (b :: bytes) c rest hclose hzero
    rwa [marked_cons hb] at hescape

/-- A byte that is neither a 0 at the end nor a 0 in front of another byte. -/
theorem ne_zero_of_unpaired {b : UInt8} {rest : Bytes} (hlast : b = 0 → rest = [] → False)
    (hpair : ∀ c tail, b = 0 → rest = c :: tail → False) : b ≠ 0 := by
  intro hb
  cases rest with
  | nil => exact hlast hb rfl
  | cons c tail => exact hpair c tail hb rfl

/-- What is read is closed, and all else is not. -/
theorem unescapeFrom_spec (taken bytes : Bytes) :
    match unescapeFrom taken bytes with
    | .ok (out, rest) => ∃ body, out = taken.reverse ++ body ∧ bytes = escape body ++ rest
    | .error e => Unclosed bytes e := by
  fun_induction unescapeFrom taken bytes with
  | case1 => exact .ended []
  | case2 => exact .half []
  | case3 taken rest ih =>
    revert ih
    cases unescapeFrom (0 :: taken) rest with
    | ok result =>
      rintro ⟨body, hout, rfl⟩
      exact ⟨0 :: body, by simp [hout], rfl⟩
    | error e => exact Unclosed.zero
  | case4 taken rest => exact ⟨[], by simp, rfl⟩
  | case5 taken b rest hzero hclose => exact .escape [] b rest (by simpa using hclose) (by simpa using hzero)
  | case6 taken b rest hnil hzero hclose hescape ih =>
    have hb : b ≠ 0 := ne_zero_of_unpaired hnil hescape
    revert ih
    cases unescapeFrom (b :: taken) rest with
    | ok result =>
      rintro ⟨body, hout, rfl⟩
      exact ⟨b :: body, by simp [hout], by rw [escape_cons hb]; rfl⟩
    | error e => exact Unclosed.cons hb

theorem unescapeFrom_marked (taken bytes rest : Bytes) :
    unescapeFrom taken (marked bytes ++ rest) = unescapeFrom (bytes.reverse ++ taken) rest := by
  induction bytes generalizing taken with
  | nil => rfl
  | cons b bytes ih =>
    by_cases hb : b = 0
    · subst hb
      simp [marked_zero, unescapeFrom, ih]
    · simp [marked_cons hb, unescapeFrom, hb, ih]

theorem unescape_eq_ok_iff {bytes out rest : Bytes} :
    unescape bytes = .ok (out, rest) ↔ bytes = escape out ++ rest := by
  constructor
  · intro h
    have hspec := unescapeFrom_spec [] bytes
    rw [← unescape, h] at hspec
    obtain ⟨body, rfl, hbytes⟩ := hspec
    exact hbytes
  · rintro rfl
    exact unescape_escape out rest

theorem unescape_eq_error_iff {bytes : Bytes} {e : DecodeError} :
    unescape bytes = .error e ↔ Unclosed bytes e := by
  constructor
  · intro h
    have hspec := unescapeFrom_spec [] bytes
    rwa [← unescape, h] at hspec
  · intro h
    cases h with
    | ended bytes =>
      have hmarked := unescapeFrom_marked [] bytes []
      rw [List.append_nil] at hmarked
      rw [unescape, hmarked]
      rfl
    | half bytes =>
      rw [unescape, unescapeFrom_marked]
      rfl
    | escape bytes b rest hclose hzero =>
      rw [unescape, unescapeFrom_marked]
      simp only [unescapeFrom]

/-! ## Values -/

/-- What a reader of one value makes of bytes: a value that they start with, or what is wrong. -/
def Judges (field : Field) (bytes : Bytes) : Except DecodeError (Datum × Bytes) → Prop
  | .ok (datum, rest) => datum.fits field.type = true ∧ bytes = spell datum ++ rest
  | .error e => BadValue field bytes e

theorem judges_fixed {field : Field} {width : Nat} {make : Bytes → Datum}
    (hwidth : field.type.width? = some width)
    (hmake : ∀ head, head.length = width →
      (make head).fits field.type = true ∧ spell (make head) = 1 :: head) (bytes : Bytes) :
    Judges field (1 :: bytes) ((do return make (← takeBytes width) : Decode Datum) bytes) := by
  rw [bind_apply, takeBytes]
  cases hsplit : Bytes.split? width bytes with
  | none => exact .short width bytes hwidth (Bytes.split?_eq_none_iff.1 hsplit)
  | some parts =>
    obtain ⟨rfl, hlength⟩ := Bytes.split?_eq_some_iff.1 hsplit
    obtain ⟨hfits, hspell⟩ := hmake _ hlength
    refine ⟨hfits, ?_⟩
    rw [hspell]
    rfl

theorem judges_unescape {field : Field} {next : Bytes → Decode Datum}
    (hwidth : field.type.width? = none)
    (hnext : ∀ out rest, Judges field (1 :: (escape out ++ rest)) (next out rest)) (bytes : Bytes) :
    Judges field (1 :: bytes) ((unescape >>= next) bytes) := by
  rw [bind_apply]
  cases hread : unescape bytes with
  | error e => exact .unclosed bytes e hwidth (unescape_eq_error_iff.1 hread)
  | ok parts =>
    obtain ⟨out, rest⟩ := parts
    obtain rfl := unescape_eq_ok_iff.1 hread
    exact hnext out rest

theorem decodeField_marker (field : Field) {b : UInt8} (hnull : b ≠ 0) (hpresent : b ≠ 1)
    (rest : Bytes) : decodeField field (b :: rest) = .error (.badMarker b field.name) := by
  simp [decodeField, takeByte]

theorem decodePresent_boolean {field : Field} (htype : field.type = .boolean) {b : UInt8}
    (hfalse : b ≠ 0) (htrue : b ≠ 1) (rest : Bytes) :
    decodePresent field (b :: rest) = .error (.badBoolean b field.name) := by
  simp [decodePresent, htype, takeByte]

theorem judges_decodePresent (field : Field) (bytes : Bytes) :
    Judges field (1 :: bytes) (decodePresent field bytes) := by
  obtain ⟨id, name, type, required⟩ := field
  cases type with
  | boolean =>
    cases bytes with
    | nil => exact .short 1 [] rfl Nat.zero_lt_one
    | cons b rest =>
      by_cases hfalse : b = 0
      · subst hfalse
        exact ⟨rfl, rfl⟩
      by_cases htrue : b = 1
      · subst htrue
        exact ⟨rfl, rfl⟩
      · rw [decodePresent_boolean rfl hfalse htrue]
        exact .boolean b rest rfl hfalse htrue
  | int | date =>
    exact judges_fixed rfl
      (fun head h => ⟨rfl, by simp [spell, encodeDatum, encodeInt_decodeInt h]⟩) bytes
  | long | timestamp =>
    exact judges_fixed rfl
      (fun head h => ⟨rfl, by simp [spell, encodeDatum, encodeLong_decodeLong h]⟩) bytes
  | float => exact judges_fixed rfl (fun head h => ⟨rfl, spell_decodeFloat h⟩) bytes
  | double => exact judges_fixed rfl (fun head h => ⟨rfl, spell_decodeDouble h⟩) bytes
  | string =>
    refine judges_unescape rfl (fun out rest => ?_) bytes
    dsimp only
    cases hutf8 : Utf8.decode out with
    | ok text =>
      obtain rfl := Utf8.eq_encode_of_decode hutf8
      exact ⟨rfl, rfl⟩
    | error fault => exact .notUtf8 out rest fault rfl hutf8
  | binary =>
    refine judges_unescape rfl (fun out rest => ?_) bytes
    exact ⟨rfl, rfl⟩

theorem judges_decodeField (field : Field) (bytes : Bytes) :
    Judges field bytes (decodeField field bytes) := by
  cases bytes with
  | nil => exact .ended
  | cons b rest =>
    by_cases hnull : b = 0
    · subst hnull
      exact ⟨rfl, rfl⟩
    by_cases hpresent : b = 1
    · subst hpresent
      exact judges_decodePresent field rest
    · rw [decodeField_marker field hnull hpresent]
      exact .marker b rest hnull hpresent

/-- A value is read from its spelling, whatever follows. -/
theorem decodeField_spell {field : Field} {datum : Datum} (h : datum.fits field.type = true)
    (rest : Bytes) : decodeField field (spell datum ++ rest) = .ok (datum, rest) := by
  obtain ⟨id, name, type, required⟩ := field
  cases datum with
  | float bits =>
    cases type <;> cases h
    rw [spell, List.cons_append, decodeField_present]
    simp [decodePresent, decodeFloat, ofNat_decode, Ieee.ofOrder_order]
  | double bits =>
    cases type <;> cases h
    rw [spell, List.cons_append, decodeField_present]
    simp [decodePresent, decodeDouble, ofNat_decode, Ieee.ofOrder_order]
  | _ => exact decodeField_encodeDatum h rest

/-- A value that is too short is not read. -/
theorem decodePresent_short {field : Field} {width : Nat} {bytes : Bytes}
    (hwidth : field.type.width? = some width) (hshort : bytes.length < width) :
    decodePresent field bytes = .error .truncated := by
  obtain ⟨id, name, type, required⟩ := field
  have hsplit := Bytes.split?_eq_none_iff.2 hshort
  cases type with
  | boolean =>
    cases hwidth
    rw [List.length_eq_zero_iff.1 (Nat.lt_one_iff.1 hshort)]
    rfl
  | string | binary => cases hwidth
  | _ =>
    cases hwidth
    simp [decodePresent, takeBytes, hsplit]

/-- No value is read where something is wrong. -/
theorem BadValue.decodeField {field : Field} {bytes : Bytes} {e : DecodeError}
    (h : BadValue field bytes e) : decodeField field bytes = .error e := by
  cases h with
  | ended => rfl
  | marker b rest hnull hpresent => exact decodeField_marker field hnull hpresent rest
  | short width rest hwidth hshort => exact decodePresent_short hwidth hshort
  | boolean b rest htype hfalse htrue => exact decodePresent_boolean htype hfalse htrue rest
  | unclosed rest e hwidth hunclosed =>
    obtain ⟨id, name, type, required⟩ := field
    have hread := unescape_eq_error_iff.2 hunclosed
    cases type <;> cases hwidth <;> simp [decodeField_present, decodePresent, hread]
  | notUtf8 bytes rest fault htype hfault =>
    obtain ⟨id, name, type, required⟩ := field
    cases htype
    simp [decodeField_present, decodePresent, unescape_escape, hfault]

theorem decodeField_eq_ok_iff {field : Field} {datum : Datum} {bytes rest : Bytes} :
    decodeField field bytes = .ok (datum, rest) ↔
      datum.fits field.type = true ∧ bytes = spell datum ++ rest := by
  constructor
  · intro h
    have hjudges := judges_decodeField field bytes
    rwa [h] at hjudges
  · intro ⟨hfits, hbytes⟩
    rw [hbytes, decodeField_spell hfits]

theorem decodeField_eq_error_iff {field : Field} {bytes : Bytes} {e : DecodeError} :
    decodeField field bytes = .error e ↔ BadValue field bytes e := by
  constructor
  · intro h
    have hjudges := judges_decodeField field bytes
    rwa [h] at hjudges
  · exact BadValue.decodeField

/-! ## Rows -/

theorem decodeFields_of_error {field : Field} {bytes : Bytes} {e : DecodeError}
    (h : decodeField field bytes = .error e) (fields : List Field) :
    decodeFields (field :: fields) bytes = .error e := by
  simp [decodeFields, h]

theorem decodeFields_of_ok {field : Field} {datum : Datum} {bytes rest : Bytes}
    (h : decodeField field bytes = .ok (datum, rest)) (fields : List Field) :
    decodeFields (field :: fields) bytes =
      match decodeFields fields rest with
      | .ok (data, rest) => .ok (datum :: data, rest)
      | .error e => .error e := by
  simp only [decodeFields, bind_apply, h]
  cases decodeFields fields rest <;> rfl

theorem decodeFields_eq_ok_iff {fields : List Field} {data : List Datum} {bytes rest : Bytes} :
    decodeFields fields bytes = .ok (data, rest) ↔
      List.Forall₂ (fun field datum => datum.fits field.type = true) fields data ∧
        bytes = data.flatMap spell ++ rest := by
  induction fields generalizing data bytes with
  | nil => cases data <;> simp [decodeFields]
  | cons field fields ih =>
    constructor
    · intro h
      cases hfirst : decodeField field bytes with
      | error e => simp [decodeFields_of_error hfirst] at h
      | ok first =>
        obtain ⟨datum, middle⟩ := first
        obtain ⟨hfits, rfl⟩ := decodeField_eq_ok_iff.1 hfirst
        rw [decodeFields_of_ok hfirst] at h
        cases hlater : decodeFields fields middle with
        | error e => simp [hlater] at h
        | ok later =>
          obtain ⟨tail, left⟩ := later
          rw [hlater] at h
          cases h
          obtain ⟨htail, rfl⟩ := ih.1 hlater
          exact ⟨.cons hfits htail, by simp⟩
    · rintro ⟨hdata, hbytes⟩
      cases hdata with
      | cons hfits htail =>
        rw [List.flatMap_cons, List.append_assoc] at hbytes
        rw [decodeFields_of_ok (decodeField_eq_ok_iff.2 ⟨hfits, hbytes⟩), ih.2 ⟨htail, rfl⟩]

/-- Bytes are malformed when no values of the fields are read from them, or some bytes are left over. -/
theorem malformed_iff {fields : List Field} {bytes : Bytes} {e : DecodeError} :
    Malformed fields bytes e ↔ decodeFields fields bytes = .error e ∨ ∃ data rest,
      decodeFields fields bytes = .ok (data, rest) ∧ rest ≠ [] ∧ e = .trailing rest.length := by
  induction fields generalizing bytes with
  | nil =>
    constructor
    · intro h
      cases h with
      | trailing _ hmore => exact .inr ⟨[], bytes, rfl, hmore, rfl⟩
    · intro h
      obtain h | ⟨data, rest, h, hmore, rfl⟩ := h <;> cases h
      exact .trailing bytes hmore
  | cons field fields ih =>
    constructor
    · intro h
      cases h with
      | value _ _ _ _ hbad => exact .inl (decodeFields_of_error hbad.decodeField fields)
      | later _ _ datum bytes _ hfits hlater =>
        rw [decodeFields_of_ok (decodeField_spell hfits bytes)]
        obtain hlater | ⟨data, rest, hlater, hmore⟩ := ih.1 hlater
        · exact .inl (by rw [hlater])
        · exact .inr ⟨datum :: data, rest, by rw [hlater], hmore⟩
    · intro h
      cases hfirst : decodeField field bytes with
      | error e' =>
        rw [decodeFields_of_error hfirst] at h
        obtain h | ⟨data, rest, h, -⟩ := h <;> cases h
        exact .value _ _ _ _ (decodeField_eq_error_iff.1 hfirst)
      | ok first =>
        obtain ⟨datum, middle⟩ := first
        obtain ⟨hfits, rfl⟩ := decodeField_eq_ok_iff.1 hfirst
        refine .later _ _ datum middle e hfits (ih.2 ?_)
        rw [decodeFields_of_ok hfirst] at h
        cases hlater : decodeFields fields middle with
        | error e' => simpa [hlater] using h
        | ok later => 
          obtain ⟨tail, left⟩ := later
          simpa [hlater] using h

/-- Nothing may follow the values. -/
theorem decode_eq (schema : Schema) (bytes : Bytes) :
    decode schema bytes =
      match decodeFields schema.fields bytes with
      | .ok (data, rest) => if rest = [] then .ok ⟨data⟩ else .error (.trailing rest.length)
      | .error e => .error e := by
  unfold decode
  cases decodeFields schema.fields bytes <;> rfl

/-- A row is read from its spelling and from nothing else. -/
theorem decode_eq_ok_iff {schema : Schema} {bytes : Bytes} {row : Row} :
    decode schema bytes = .ok row ↔ row.Matches schema ∧ bytes = row.values.flatMap spell := by
  have hfields : decode schema bytes = .ok row ↔
      decodeFields schema.fields bytes = .ok (row.values, []) := by
    obtain ⟨values⟩ := row
    rw [decode_eq]
    cases decodeFields schema.fields bytes <;> grind
  rw [hfields, decodeFields_eq_ok_iff, List.append_nil, Matches]

/-- Bytes that are no row are refused for the first thing that is wrong with them. -/
theorem decode_eq_error_iff {schema : Schema} {bytes : Bytes} {e : DecodeError} :
    decode schema bytes = .error e ↔ Malformed schema.fields bytes e := by
  rw [decode_eq, malformed_iff]
  cases decodeFields schema.fields bytes with
  | error e' => simp
  | ok result =>
    obtain ⟨data, rest⟩ := result
    grind

/-! ## Encodings -/

/-- Values of one type are spelled differently. -/
theorem spell_inj (type : FieldType) {a b : Datum} (ha : a.fits type = true)
    (hb : b.fits type = true) (h : spell a = spell b) : a = b := by
  have hread (datum : Datum) (h : datum.fits type = true) :=
    @decodeField_spell ⟨0, "", type, false⟩ datum h []
  have hboth := hread a ha
  rw [h, hread b hb] at hboth
  cases hboth
  rfl

/-- A value is encoded as it is spelled when it has the bits that its encoding keeps. -/
theorem spell_eq_encodeDatum_iff (datum : Datum) :
    spell datum = encodeDatum datum ↔ ¬ datum.IsStrayNan := by
  cases datum with
  | float bits =>
    show spell (.float bits) = spell (.float (canonicalSingle bits)) ↔ _
    have hinj : spell (.float bits) = spell (.float (canonicalSingle bits)) ↔
        bits = canonicalSingle bits :=
      ⟨fun h => Datum.float.inj (spell_inj .float rfl rfl h),
        congrArg fun bits => spell (.float bits)⟩
    rw [hinj, canonicalSingle_eq, Datum.IsStrayNan]
    grind
  | double bits =>
    show spell (.double bits) = spell (.double (canonicalDouble bits)) ↔ _
    have hinj : spell (.double bits) = spell (.double (canonicalDouble bits)) ↔
        bits = canonicalDouble bits :=
      ⟨fun h => Datum.double.inj (spell_inj .double rfl rfl h),
        congrArg fun bits => spell (.double bits)⟩
    rw [hinj, canonicalDouble_eq, Datum.IsStrayNan]
    grind
  | _ => simp [spell, Datum.IsStrayNan]

theorem length_spell (datum : Datum) : (spell datum).length = (encodeDatum datum).length := by
  cases datum <;> simp [spell, encodeDatum]

theorem flatMap_spell_eq_iff (data : List Datum) :
    data.flatMap spell = data.flatMap encodeDatum ↔ ¬ ∃ datum ∈ data, datum.IsStrayNan := by
  induction data with
  | nil => simp
  | cons datum data ih =>
    have hparts : (datum :: data).flatMap spell = (datum :: data).flatMap encodeDatum ↔
        spell datum = encodeDatum datum ∧ data.flatMap spell = data.flatMap encodeDatum := by
      rw [List.flatMap_cons, List.flatMap_cons]
      constructor
      · exact fun h => List.append_inj h (length_spell datum)
      · exact fun h => congrArg₂ _ h.1 h.2
    simp only [hparts, spell_eq_encodeDatum_iff, ih]
    simp

/-- The row has no value where one is required. -/
def LacksRequired (schema : Schema) (row : Row) : Prop :=
  ∃ pair ∈ schema.fields.zip row.values, pair.1.required = true ∧ pair.2 = .null

instance (schema : Schema) (row : Row) : Decidable (row.LacksRequired schema) :=
  inferInstanceAs (Decidable (∃ pair ∈ _, _ ∧ _))

theorem conforms_iff {schema : Schema} {row : Row} :
    row.Conforms schema ↔ row.Matches schema ∧ ¬ row.LacksRequired schema := by
  obtain ⟨fields⟩ := schema
  obtain ⟨data⟩ := row
  show List.Forall₂ Field.Admits fields data ↔ List.Forall₂ _ fields data ∧
    ¬ ∃ pair ∈ fields.zip data, pair.1.required = true ∧ pair.2 = .null
  simp only [List.forall₂_iff_zip, Field.admits_iff]
  grind

/-- A row that was read is written as the bytes it was read from, unless it has no encoding or has values
that are no number with bits of their own. -/
theorem encode_eq_ok_iff_of_decode {schema : Schema} {bytes : Bytes} {row : Row}
    (h : decode schema bytes = .ok row) :
    encode schema row = .ok bytes ↔
      ¬ (row.LacksRequired schema ∨ ∃ datum ∈ row.values, datum.IsStrayNan) := by
  obtain ⟨hmatches, rfl⟩ := decode_eq_ok_iff.1 h
  rw [encode_eq_ok_iff, conforms_iff, flatMap_spell_eq_iff, not_or, and_iff_right hmatches]

/-! ## Bytes cut short -/

/-- A reader that misses bytes says so, and else takes no notice of the bytes that it does not need. -/
def Incremental {α : Type} (read : Decode α) : Prop :=
  ∀ head tail, read head = .error .truncated ∨
    read (head ++ tail) = (read head).map fun result => (result.1, result.2 ++ tail)

theorem Incremental.pure {α : Type} (a : α) : Incremental (pure a) := fun _ _ => .inr rfl

theorem Incremental.throw {α : Type} (e : DecodeError) : Incremental (throw e : Decode α) :=
  fun _ _ => .inr rfl

theorem Incremental.bind {α β : Type} {read : Decode α} {next : α → Decode β}
    (hread : Incremental read) (hnext : ∀ a, Incremental (next a)) : Incremental (read >>= next) := by
  intro head tail
  simp only [bind_apply]
  obtain h | h := hread head tail
  · exact .inl (by rw [h])
  · rw [h]
    cases read head with
    | error e => exact .inr rfl
    | ok result => exact hnext result.1 result.2 tail

theorem incremental_takeByte : Incremental takeByte := by
  intro head tail
  cases head with
  | nil => exact .inl rfl
  | cons b rest => exact .inr rfl

theorem incremental_takeBytes (n : Nat) : Incremental (takeBytes n) := by
  intro head tail
  simp only [takeBytes]
  cases hsplit : Bytes.split? n head with
  | none => exact .inl rfl
  | some parts =>
    obtain ⟨rfl, rfl⟩ := Bytes.split?_eq_some_iff.1 hsplit
    rw [List.append_assoc, Bytes.split?_append]
    exact .inr rfl

theorem incremental_unescape : Incremental unescape := by
  intro head tail
  show unescapeFrom [] head = _ ∨ unescapeFrom [] (head ++ tail) = (unescapeFrom [] head).map _
  generalize ([] : Bytes) = taken
  fun_induction unescapeFrom taken head with
  | case1 => exact .inl rfl
  | case2 => exact .inl rfl
  | case3 taken rest ih => simpa [unescapeFrom] using ih
  | case4 taken rest => exact .inr rfl
  | case5 taken b rest hzero hclose => exact .inr (by simp only [List.cons_append, unescapeFrom]; rfl)
  | case6 taken b rest hnil hzero hclose hescape ih =>
    have hb : b ≠ 0 := ne_zero_of_unpaired hnil hescape
    simpa [unescapeFrom, hb] using ih

theorem incremental_decodePresent (field : Field) : Incremental (decodePresent field) := by
  obtain ⟨id, name, type, required⟩ := field
  cases type with
  | boolean =>
    refine incremental_takeByte.bind fun b => ?_
    split
    · exact .pure _
    · exact .pure _
    · exact .throw _
  | string =>
    refine incremental_unescape.bind fun bytes => ?_
    split
    · exact .pure _
    · exact .throw _
  | binary => exact incremental_unescape.bind fun _ => .pure _
  | _ => exact (incremental_takeBytes _).bind fun _ => .pure _

theorem incremental_decodeField (field : Field) : Incremental (decodeField field) := by
  refine incremental_takeByte.bind fun b => ?_
  split
  · exact .pure _
  · exact incremental_decodePresent field
  · exact .throw _

theorem incremental_decodeFields (fields : List Field) : Incremental (decodeFields fields) := by
  induction fields with
  | nil => exact .pure _
  | cons field fields ih =>
    exact (incremental_decodeField field).bind fun _ => ih.bind fun _ => .pure _

/-- A row whose last bytes are missing is cut short. -/
theorem decode_eq_truncated {schema : Schema} {head tail : Bytes} {row : Row}
    (h : decode schema (head ++ tail) = .ok row) (htail : tail ≠ []) :
    decode schema head = .error .truncated := by
  obtain hshort | hfull := incremental_decodeFields schema.fields head tail
  · rw [decode_eq, hshort]
  · rw [decode_eq, hfull] at h
    cases hhead : decodeFields schema.fields head with
    | error e => simp [hhead, Except.map] at h
    | ok result => simp [hhead, Except.map, htail] at h

/-! ## What is read -/

/-- Bytes that are read give a row with one value of the right type for each field, and only they give
that row; it is written as these bytes again, unless a required value is missing or a value is no
number with bits of its own. No bytes may be missing or left over, and bytes that are not read are
malformed. -/
theorem decode_spells (schema : Schema) (bytes : Bytes) :
    (∀ row, decode schema bytes = .ok row →
      row.Matches schema ∧
      (encode schema row = .ok bytes ↔
        ¬ (row.LacksRequired schema ∨ ∃ datum ∈ row.values, datum.IsStrayNan)) ∧
      (∀ other, decode schema other = .ok row → other = bytes) ∧
      (∀ head tail, head ++ tail = bytes → tail ≠ [] → decode schema head = .error .truncated) ∧
      ∀ tail, tail ≠ [] → decode schema (bytes ++ tail) = .error (.trailing tail.length)) ∧
    ∀ e, decode schema bytes = .error e ↔ Malformed schema.fields bytes e := by
  refine ⟨fun row h => ⟨(decode_eq_ok_iff.1 h).1, encode_eq_ok_iff_of_decode h, ?_, ?_, ?_⟩,
    fun e => decode_eq_error_iff⟩
  · intro other hother
    rw [(decode_eq_ok_iff.1 hother).2, (decode_eq_ok_iff.1 h).2]
  · intro head tail happend htail
    exact decode_eq_truncated (happend ▸ h) htail
  · intro tail htail
    obtain ⟨hmatches, rfl⟩ := decode_eq_ok_iff.1 h
    rw [decode_eq, decodeFields_eq_ok_iff.2 ⟨hmatches, rfl⟩]
    exact if_neg htail

/-- Fields that wild values are read of. -/
def wildSchema : Schema := ⟨[⟨1, "count", .int, true⟩, ⟨2, "weight", .float, false⟩]⟩

/-- A missing value where one is required, and a value that is no number with bits of its own. -/
def wildRow : Row := ⟨[.null, .float 0x7FC00001]⟩

def wildBytes : Bytes := [0, 1, 255, 192, 0, 1]

/-- The sample is written as it was read, the wild row is not. -/
theorem decode_spells_sample :
    encode sampleSchema sampleRow.canonical = .ok sampleBytes ∧
      decode sampleSchema (sampleBytes ++ [7]) = .error (.trailing 1) ∧
      decode wildSchema wildBytes = .ok wildRow ∧ encode wildSchema wildRow ≠ .ok wildBytes ∧
      decode wildSchema (wildBytes.take 4) = .error .truncated := by
  have hsample : decode sampleSchema sampleBytes = .ok sampleRow.canonical := by decide +kernel
  have hwild : decode wildSchema wildBytes = .ok wildRow := by decide +kernel
  obtain ⟨-, hencode, -, -, hmore⟩ := (decode_spells sampleSchema sampleBytes).1 _ hsample
  obtain ⟨-, hnot, -, hshort, -⟩ := (decode_spells wildSchema wildBytes).1 _ hwild
  refine ⟨hencode.2 ?_, hmore [7] (by decide), hwild, fun h => hnot.1 h (.inl ?_),
    hshort _ (wildBytes.drop 4) rfl (by decide)⟩
  · decide +kernel
  · decide +kernel

end Row

end Spillway
