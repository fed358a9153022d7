import Spillway.Bytes.EndianLaws
import Spillway.Error

/-!
# Values read back from the wire

`Takes` says of a reader that it takes certain bytes for a value: it leaves whatever follows them, and
it misses bytes when it is given less. It holds of readers put one after the other, so a format that
is put together from exact ones is exact itself (`Format.Exact`). Codecs for schemas, rows and their
parts read back what they wrote, and write no two values alike (`records_read_back`).
-/

namespace Spillway

/-! ## Lengths -/

/-- The length of the name fits into eight bytes. -/
def Field.Sized (field : Field) : Prop := (Utf8.encode field.name).length < UInt64.size

def Schema.Sized (schema : Schema) : Prop :=
  schema.fields.length < UInt64.size ∧ ∀ field ∈ schema.fields, field.Sized

def Datum.Sized : Datum → Prop
  | .string text => (Utf8.encode text).length < UInt64.size
  | .binary bytes => bytes.length < UInt64.size
  | _ => True

def Row.Sized (row : Row) : Prop :=
  row.values.length < UInt64.size ∧ ∀ datum ∈ row.values, datum.Sized

namespace Wire

variable {α β : Type}

/-- Some bytes are missing: they end inside a word, or inside a text. -/
def Error.IsCut (e : Error) : Prop := e = .endOfInput ∨ e = .cutShort

/-! ## Readers -/

/-- The reader takes exactly these bytes for the value and leaves what follows them. When it is given a
proper front part of them it fails, because bytes are missing. -/
structure Takes (read : Read α) (bytes : Bytes) (a : α) : Prop where
  whole : ∀ rest, read (bytes ++ rest) = .ok (a, rest)
  cut : ∀ front, front <+: bytes → front ≠ bytes → ∃ e, read front = .error e ∧ e.IsCut

theorem takes_pure (a : α) : Takes (pure a) [] a where
  whole _ := rfl
  cut _ hfront hne := absurd (List.prefix_nil.1 hfront) hne

/-- A front part of two parts ends inside the first one, or behind it. -/
theorem prefix_append_cases {front first second : Bytes} (h : front <+: first ++ second) :
    front <+: first ∧ front ≠ first ∨ ∃ part, part <+: second ∧ front = first ++ part := by
  by_cases hshort : front <+: first ∧ front ≠ first
  · exact .inl hshort
  have hlong : first <+: front := by
    rcases List.prefix_or_prefix_of_prefix h (List.prefix_append first second) with hle | hge
    · exact not_and_not_right.1 hshort hle ▸ List.prefix_rfl
    · exact hge
  obtain ⟨part, rfl⟩ := hlong
  exact .inr ⟨part, (List.prefix_append_right_inj first).1 h, rfl⟩

/-- A second reader goes on behind the bytes of the first. -/
theorem Takes.bind {read : Read α} {next : α → Read β} {a : α} {b : β} {first second : Bytes}
    (h : Takes read first a) (hnext : Takes (next a) second b) :
    Takes (read >>= next) (first ++ second) b where
  whole rest := by
    show (read (first ++ second ++ rest)).bind _ = _
    rw [List.append_assoc, h.whole]
    exact hnext.whole rest
  cut front hfront hne := by
    show ∃ e, (read front).bind _ = _ ∧ _
    rcases prefix_append_cases hfront with ⟨hshort, hless⟩ | ⟨part, hpart, rfl⟩
    · obtain ⟨e, hread, he⟩ := h.cut front hshort hless
      rw [hread]
      exact ⟨e, rfl, he⟩
    · rw [h.whole]
      exact hnext.cut part hpart fun heq => hne (by rw [heq])

/-- A second reader that takes nothing only turns one value into another. -/
theorem Takes.turn {read : Read α} {next : α → Read β} {a : α} {b : β} {bytes : Bytes}
    (h : Takes read bytes a) (hnext : Takes (next a) [] b) : Takes (read >>= next) bytes b := by
  rw [← List.append_nil bytes]
  exact h.bind hnext

theorem Takes.map {read : Read α} {a : α} {bytes : Bytes} (h : Takes read bytes a) (f : α → β) :
    Takes (f <$> read) bytes (f a) := by
  rw [map_eq_pure_bind]
  exact h.turn (takes_pure (f a))

theorem get_bind_apply (next : Bytes → Read α) (bytes : Bytes) :
    (get >>= next : Read α) bytes = next bytes bytes := rfl

theorem split?_of_cut {front bytes : Bytes} (hfront : front <+: bytes) (hne : front ≠ bytes) :
    Bytes.split? bytes.length front = none := by
  rw [Bytes.split?_eq_none_iff]
  by_contra hle
  exact hne (hfront.eq_of_length_le (Nat.not_lt.1 hle))

theorem takes_take (bytes : Bytes) : Takes (take bytes.length) bytes bytes where
  whole rest := by simp [take, Bytes.split?_append]
  cut front hfront hne := ⟨.endOfInput, by simp [take, split?_of_cut hfront hne], .inl rfl⟩

/-- A number that fits into a word is read back from it. -/
theorem takes_number {width n : Nat} (h : n < 256 ^ width) :
    Takes (LittleEndian.decode <$> take width) (LittleEndian.encode width n) n := by
  have htake := (takes_take (LittleEndian.encode width n)).map LittleEndian.decode
  rwa [LittleEndian.length_encode, LittleEndian.decode_encode_of_lt h] at htake

/-! ## Formats -/

namespace Format

/-- Every value for which `fits` holds is read back from what was written of it. -/
def Exact (f : Format α) (fits : α → Prop) : Prop := ∀ a, fits a → Takes f.read (f.write a) a

variable {f : Format α} {g : Format β} {fits fits' : α → Prop} {suits : β → Prop}

theorem Exact.mono (h : f.Exact fits) (himp : ∀ a, fits' a → fits a) : f.Exact fits' :=
  fun a ha => h a (himp a ha)

theorem Exact.map (h : f.Exact fits) {make : α → β} {back : β → α} (hback : ∀ b, make (back b) = b) :
    (f.map make back).Exact fun b => fits (back b) := by
  intro b hb
  have htakes := (h (back b) hb).map make
  rwa [hback] at htakes

theorem exact_word (n : Nat) : (word n).Exact fun _ => True := by
  intro v _
  have hlt : v.toNat < 256 ^ n := by
    have h := v.isLt
    rwa [Nat.pow_mul] at h
  have htakes := (takes_number hlt).map (BitVec.ofNat (8 * n))
  rw [BitVec.ofNat_toNat, BitVec.setWidth_eq, ← LawfulFunctor.comp_map] at htakes
  exact htakes

theorem exact_uint8 : uint8.Exact fun _ => True := (exact_word 1).map fun _ => rfl
theorem exact_uint32 : uint32.Exact fun _ => True := (exact_word 4).map fun _ => rfl
theorem exact_uint64 : uint64.Exact fun _ => True := (exact_word 8).map fun _ => rfl
theorem exact_int32 : int32.Exact fun _ => True := (exact_word 4).map fun _ => rfl
theorem exact_int64 : int64.Exact fun _ => True := (exact_word 8).map fun _ => rfl

theorem exact_length : length.Exact (· < UInt64.size) := fun _ h => takes_number h

theorem exact_bool : bool.Exact fun _ => True := by
  intro b _
  cases b with
  | false => exact (exact_uint8 0 trivial).turn (takes_pure false)
  | true => exact (exact_uint8 1 trivial).turn (takes_pure true)

theorem exact_string : string.Exact fun s => (Utf8.encode s).length < UInt64.size := by
  intro s hs
  refine (exact_length _ hs).bind ⟨fun rest => ?_, fun front hfront hne => ?_⟩
  · rw [get_bind_apply, Bytes.split?_append]
    dsimp only
    rw [Utf8.decode_encode]
    rfl
  · rw [get_bind_apply, split?_of_cut hfront hne]
    exact ⟨.cutShort, rfl, .inr rfl⟩

theorem takes_readMany (h : f.Exact fits) {l : List α} (hl : ∀ a ∈ l, fits a) (taken : List α) :
    Takes (readMany f l.length taken) (l.flatMap f.write) (taken.reverse ++ l) := by
  induction l generalizing taken with
  | nil =>
    rw [List.append_nil]
    exact takes_pure _
  | cons a l ih =>
    rw [List.forall_mem_cons] at hl
    have hrest := ih hl.2 (a :: taken)
    rw [List.reverse_cons, List.append_assoc] at hrest
    exact (h a hl.1).bind hrest

theorem Exact.list (h : f.Exact fits) :
    (list f).Exact fun l => l.length < UInt64.size ∧ ∀ a ∈ l, fits a :=
  fun _ hl => (exact_length _ hl.1).bind (takes_readMany h hl.2 [])

theorem Exact.pair (hf : f.Exact fits) (hg : g.Exact suits) :
    (pair f g).Exact fun p => fits p.1 ∧ suits p.2 := by
  intro (a, b) ⟨ha, hb⟩
  exact (hf a ha).bind ((hg b hb).map (Prod.mk a))

theorem exact_variant {count : Nat} (h : count ≤ UInt32.size) : (variant count).Exact (· < count) := by
  intro n hn
  have hword : n < 256 ^ 4 := Nat.lt_of_lt_of_le hn h
  have htake := takes_take (LittleEndian.encode 4 n)
  rw [LittleEndian.length_encode] at htake
  refine htake.turn ?_
  dsimp only
  rw [LittleEndian.decode_encode_of_lt hword, if_pos hn]
  exact takes_pure n

/-- The number of an alternative, and then its value. -/
theorem Exact.alternative (h : f.Exact fits) (n count : Nat) {next : Nat → Read β} (make : α → β)
    (hn : n < count ∧ count ≤ UInt32.size) (hnext : next n = make <$> f.read) {a : α} (ha : fits a) :
    Takes ((variant count).read >>= next) (tagged n f a) (make a) := by
  refine (exact_variant hn.2 n hn.1).bind ?_
  rw [hnext]
  exact (h a ha).map make

/-! ## Schemas and rows -/

theorem exact_fieldType : fieldType.Exact fun _ => True := by
  intro t _
  have hn : fieldTypes.idxOf t < fieldTypes.length := by cases t <;> decide
  have hfound : fieldTypes[fieldTypes.idxOf t]? = some t := by cases t <;> rfl
  refine (exact_variant (by decide) _ hn).turn ?_
  rw [hfound]
  exact takes_pure t

theorem exact_field : field.Exact Field.Sized := by
  have hparts := exact_int32.pair (exact_string.pair (exact_fieldType.pair exact_bool))
  exact (hparts.map fun _ => rfl).mono fun _ hname => ⟨trivial, hname, trivial, trivial⟩

theorem exact_schema : schema.Exact Schema.Sized := exact_field.list.map fun _ => rfl

theorem exact_bytes : bytes.Exact (·.length < UInt64.size) :=
  exact_uint8.list.mono fun _ hlength => ⟨hlength, fun _ _ => trivial⟩

theorem exact_datum : datum.Exact Datum.Sized := by
  intro a ha
  cases a with
  | null => exact (exact_variant (by decide) 0 (by decide)).turn (takes_pure _)
  | boolean value => exact exact_bool.alternative 1 10 Datum.boolean (by decide) rfl trivial
  | int value => exact exact_int32.alternative 2 10 Datum.int (by decide) rfl trivial
  | long value => exact exact_int64.alternative 3 10 Datum.long (by decide) rfl trivial
  | float bits => exact exact_uint32.alternative 4 10 Datum.float (by decide) rfl trivial
  | double bits => exact exact_uint64.alternative 5 10 Datum.double (by decide) rfl trivial
  | date days => exact exact_int32.alternative 6 10 Datum.date (by decide) rfl trivial
  | timestamp micros => exact exact_int64.alternative 7 10 Datum.timestamp (by decide) rfl trivial
  | string text => exact exact_string.alternative 8 10 Datum.string (by decide) rfl ha
  | binary value => exact exact_bytes.alternative 9 10 Datum.binary (by decide) rfl ha

theorem exact_row : row.Exact Row.Sized := exact_datum.list.map fun _ => rfl

end Format

end Wire

namespace Codec

open Wire (Format)

variable {α : Type}

/-- The codec writes all values whose lengths fit, and reads them back whatever follows them. Less than
what it wrote is a failure of serialization: bytes are missing. No two values are written alike, so
they are different keys of a map. -/
structure Exact (codec : Codec α) (sized : α → Prop) : Prop where
  reads_back : ∀ a, sized a → ∃ bytes, codec.encode a = .ok bytes ∧
    (∀ rest, codec.decode (bytes ++ rest) = .ok a) ∧
    ∀ front, front <+: bytes → front ≠ bytes → ∃ e : Wire.Error, e.IsCut ∧
      (codec.decode front).mapError Error.serialization = .error (.serialization (.wire e))
  apart : ∀ a b, sized a → sized b → codec.encode a = codec.encode b → a = b

theorem exact_ofFormat {f : Format α} {fits : α → Prop} (h : f.Exact fits) :
    (ofFormat f).Exact fits := by
  have hback {a : α} (ha : fits a) (rest : Bytes) :
      (ofFormat f).decode (f.write a ++ rest) = .ok a := by
    simp [ofFormat, Format.decode, (h a ha).whole rest, Except.mapError]
  refine ⟨fun a ha => ⟨f.write a, rfl, hback ha, fun front hfront hne => ?_⟩, fun a b ha hb heq => ?_⟩
  · obtain ⟨e, hread, he⟩ := (h a ha).cut front hfront hne
    exact ⟨e, he, by simp [ofFormat, Format.decode, hread, Except.mapError]⟩
  · have hbytes : f.write a = f.write b := Except.ok.inj heq
    have hb' := hback hb []
    rw [← hbytes, hback ha []] at hb'
    exact Except.ok.inj hb'

/-- Field types, fields, schemas, values and rows are read back to the last bit from what is written of
them, also numbers that are none, and nothing less is taken for them. -/
theorem records_read_back :
    (ofFormat .fieldType).Exact (fun _ => True) ∧ (ofFormat .field).Exact Field.Sized ∧
      (ofFormat .schema).Exact Schema.Sized ∧ (ofFormat .datum).Exact Datum.Sized ∧
      (ofFormat .row).Exact Row.Sized :=
  ⟨exact_ofFormat Format.exact_fieldType, exact_ofFormat Format.exact_field,
    exact_ofFormat Format.exact_schema, exact_ofFormat Format.exact_datum,
    exact_ofFormat Format.exact_row⟩

/-- Two values that are no number, with other bits each, are not written alike. -/
theorem records_read_back_payloads :
    (∃ bytes, (ofFormat .row).encode ⟨[.float 0x7FA00001, .null, .string "é"]⟩ = .ok bytes ∧
      ∀ rest, (ofFormat .row).decode (bytes ++ rest) =
        .ok ⟨[.float 0x7FA00001, .null, .string "é"]⟩) ∧
      (ofFormat .datum).encode (.float 0x7FA00001) ≠ (ofFormat .datum).encode (.float 0x7FA00002) := by
  obtain ⟨-, -, -, hdatum, hrow⟩ := records_read_back
  have hsized : Row.Sized ⟨[.float 0x7FA00001, .null, .string "é"]⟩ := by
    simp [Row.Sized, Datum.Sized]
    decide
  obtain ⟨bytes, hencode, hdecode, -⟩ := hrow.reads_back _ hsized
  refine ⟨⟨bytes, hencode, hdecode⟩, fun heq => ?_⟩
  cases hdatum.apart (.float 0x7FA00001) (.float 0x7FA00002) trivial trivial heq

end Codec

end Spillway
