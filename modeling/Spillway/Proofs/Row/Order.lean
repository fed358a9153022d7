import Spillway.Proofs.Row.Decoding

/-!
# The order of encoded rows

Encodings of one schema compare like the rows, field by field (`compare_encodings`). Encodings of two
values of a field never end at different places with all bytes before them equal, so what follows
them only counts when the values are equal (`compare_encodeDatum`). For text and bytes that is the work
of the mark at the end: it is smaller than a marked zero and every other byte (`compare_escape`).
-/

namespace Spillway

/-- The order of the values of a field: `null` first, numbers as numbers, text by its bytes. -/
def Datum.order : Datum → Datum → Ordering
  | .null, .null => .eq
  | .null, _ => .lt
  | _, .null => .gt
  | .boolean a, .boolean b => compare a b
  | .int a, .int b => compare a.toInt b.toInt
  | .long a, .long b => compare a.toInt b.toInt
  | .float a, .float b =>
    (Ieee.value Ieee.single a.toNat).totalOrder (Ieee.value Ieee.single b.toNat)
  | .double a, .double b =>
    (Ieee.value Ieee.double a.toNat).totalOrder (Ieee.value Ieee.double b.toNat)
  | .date a, .date b => compare a.toInt b.toInt
  | .timestamp a, .timestamp b => compare a.toInt b.toInt
  | .string a, .string b => compare (Utf8.encode a) (Utf8.encode b)
  | .binary a, .binary b => compare a b
  | _, _ => .eq

/-- The order of the rows of a schema: the first values that differ decide. -/
def Row.order (a b : Row) : Ordering := List.compareLex Datum.order a.values b.values

namespace Row

/-! ## Numbers -/

theorem flipSign_eq_or {w : Nat} {bits : BitVec w} (h : bits.msb = false) :
    flipSign bits = bits ||| BitVec.intMin w := by
  rw [BitVec.msb_eq_getLsbD_last] at h
  apply BitVec.eq_of_getLsbD_eq
  intro i hi
  simp only [flipSign, BitVec.getLsbD_xor, BitVec.getLsbD_or, BitVec.getLsbD_intMin]
  by_cases hlast : i + 1 = w
  · have hi : i = w - 1 := by omega
    simp [hi, h]
  · simp [hlast]

/-- Flipping the sign moves signed numbers up so far that none is below zero. -/
theorem toNat_flipSign {w : Nat} (hw : 0 < w) (bits : BitVec w) :
    ((flipSign bits).toNat : Int) = bits.toInt + (2 ^ (w - 1) : Nat) := by
  have hpow : 2 ^ w = 2 ^ (w - 1) * 2 := by rw [← Nat.pow_succ, Nat.succ_eq_add_one,
    Nat.sub_one_add_one hw.ne']
  have hpos {x : BitVec w} (h : x.msb = false) : (flipSign x).toNat = x.toNat + 2 ^ (w - 1) := by
    have hlt : x.toNat < 2 ^ (w - 1) := by simpa [BitVec.msb_eq_decide] using h
    rw [flipSign_eq_or h, Ieee.toNat_or_intMin hw hlt]
  rw [BitVec.toInt_eq_msb_cond]
  by_cases h : bits.msb = true
  · have hflip : (flipSign bits).msb = false := by simp [flipSign, h, BitVec.msb_intMin, hw]
    have hback := hpos hflip
    rw [flipSign_flipSign] at hback
    rw [if_pos h]
    omega
  · rw [if_neg h, hpos (by simpa using h)]
    omega

theorem compare_flipSign {w : Nat} (hw : 0 < w) (a b : BitVec w) :
    compare (flipSign a).toNat (flipSign b).toNat = compare a.toInt b.toInt := by
  have ha := toNat_flipSign hw a
  have hb := toNat_flipSign hw b
  exact compare_congr (by omega) (by omega)

theorem compare_encodeInt (a b : Int32) :
    compare (encodeInt a) (encodeInt b) = compare a.toInt b.toInt := by
  rw [encodeInt, encodeInt, BigEndian.compare_encode (BitVec.isLt _) (BitVec.isLt _),
    compare_flipSign (by decide)]
  rfl

theorem compare_encodeLong (a b : Int64) :
    compare (encodeLong a) (encodeLong b) = compare a.toInt b.toInt := by
  rw [encodeLong, encodeLong, BigEndian.compare_encode (BitVec.isLt _) (BitVec.isLt _),
    compare_flipSign (by decide)]
  rfl

theorem compare_encodeFloat (a b : UInt32) :
    compare (encodeFloat a) (encodeFloat b) =
      (Ieee.value Ieee.single a.toNat).totalOrder (Ieee.value Ieee.single b.toNat) := by
  have hbits (bits : UInt32) : (canonicalSingle bits).toBitVec =
      Ieee.canonical (l := Ieee.single) singleNan.toBitVec bits.toBitVec := by
    rw [canonicalSingle_eq]
    exact apply_ite UInt32.toBitVec _ singleNan bits
  rw [encodeFloat, encodeFloat, BigEndian.compare_encode (BitVec.isLt _) (BitVec.isLt _), hbits, hbits]
  exact Ieee.compare_order (l := Ieee.single) (by decide) (by decide) a.toBitVec b.toBitVec

theorem compare_encodeDouble (a b : UInt64) :
    compare (encodeDouble a) (encodeDouble b) =
      (Ieee.value Ieee.double a.toNat).totalOrder (Ieee.value Ieee.double b.toNat) := by
  have hbits (bits : UInt64) : (canonicalDouble bits).toBitVec =
      Ieee.canonical (l := Ieee.double) doubleNan.toBitVec bits.toBitVec := by
    rw [canonicalDouble_eq]
    exact apply_ite UInt64.toBitVec _ doubleNan bits
  rw [encodeDouble, encodeDouble, BigEndian.compare_encode (BitVec.isLt _) (BitVec.isLt _), hbits,
    hbits]
  exact Ieee.compare_order (l := Ieee.double) (by decide) (by decide) a.toBitVec b.toBitVec

/-! ## Text and bytes -/

theorem escape_head (b : UInt8) (bytes : Bytes) : ∃ tail, escape (b :: bytes) = b :: tail := by
  by_cases hb : b = 0
  · subst hb
    exact ⟨_, escape_zero bytes⟩
  · exact ⟨_, escape_cons hb bytes⟩

/-- The mark at the end is below every byte that a longer string has in its place. -/
theorem compare_escape_nil (b : UInt8) (bytes r s : Bytes) :
    compare (escape [] ++ r) (escape (b :: bytes) ++ s) = .lt := by
  have hnil : escape [] = [0, 1] := rfl
  by_cases hb : b = 0
  · subst hb
    have hlt : compare (1 : UInt8) 255 = .lt := by decide
    simp [hnil, escape_zero, List.compare_cons_cons, hlt]
  · have hlt : compare 0 b = .lt := by
      rw [Std.compare_eq_lt]
      exact UInt8.pos_iff_ne_zero.2 hb
    simp [hnil, escape_cons hb, List.compare_cons_cons, hlt]

theorem compare_escape (x y r s : Bytes) :
    compare (escape x ++ r) (escape y ++ s) = (compare x y).then (compare r s) := by
  induction x generalizing y with
  | nil =>
    cases y with
    | nil => simp [escape, List.compare_cons_cons]
    | cons c y => simp [compare_escape_nil]
  | cons b x ih =>
    cases y with
    | nil => simp [Std.OrientedOrd.eq_swap (a := escape (b :: x) ++ r), compare_escape_nil]
    | cons c y =>
      by_cases hbc : b = c
      · subst hbc
        by_cases hb : b = 0
        · simp [hb, escape_zero, List.compare_cons_cons, ih]
        · simp [escape_cons hb, List.compare_cons_cons, ih]
      · obtain ⟨tailb, hb⟩ := escape_head b x
        obtain ⟨tailc, hc⟩ := escape_head c y
        have hne : compare b c ≠ .eq := by simpa using hbc
        rw [hb, hc]
        simp only [List.cons_append, List.compare_cons_cons]
        cases h : compare b c <;> simp_all

/-! ## Values -/

/-- The encodings of two values of a field compare like the values, and what follows them counts when
the values are equal. -/
theorem compare_encodeDatum {type : FieldType} {a b : Datum} (ha : a.fits type = true)
    (hb : b.fits type = true) (r s : Bytes) :
    compare (encodeDatum a ++ r) (encodeDatum b ++ s) = (a.order b).then (compare r s) := by
  have hlt : compare (0 : UInt8) 1 = .lt := by decide
  have hgt : compare (1 : UInt8) 0 = .gt := by decide
  have hbool : ∀ a b : Bool, compare (if a then 1 else 0 : UInt8) (if b then 1 else 0) = compare a b :=
    by decide
  -- In each type a value is missing or has the one shape of the type.
  cases type with
  | boolean =>
    cases a <;> cases ha <;> cases b <;> cases hb <;>
      simp [encodeDatum, Datum.order, List.compare_cons_cons, hlt, hgt, hbool]
  | int | date =>
    cases a <;> cases ha <;> cases b <;> cases hb <;>
      simp [encodeDatum, Datum.order, List.compare_cons_cons, hlt, hgt, Bytes.compare_append,
        compare_encodeInt]
  | long | timestamp =>
    cases a <;> cases ha <;> cases b <;> cases hb <;>
      simp [encodeDatum, Datum.order, List.compare_cons_cons, hlt, hgt, Bytes.compare_append,
        compare_encodeLong]
  | float =>
    cases a <;> cases ha <;> cases b <;> cases hb <;>
      simp [encodeDatum, Datum.order, List.compare_cons_cons, hlt, hgt, Bytes.compare_append,
        compare_encodeFloat]
  | double =>
    cases a <;> cases ha <;> cases b <;> cases hb <;>
      simp [encodeDatum, Datum.order, List.compare_cons_cons, hlt, hgt, Bytes.compare_append,
        compare_encodeDouble]
  | string | binary =>
    cases a <;> cases ha <;> cases b <;> cases hb <;>
      simp [encodeDatum, Datum.order, List.compare_cons_cons, hlt, hgt, compare_escape]

theorem canonicalSingle_canonicalSingle (bits : UInt32) :
    canonicalSingle (canonicalSingle bits) = canonicalSingle bits := by
  unfold canonicalSingle
  split
  · decide
  · rfl

theorem canonicalDouble_canonicalDouble (bits : UInt64) :
    canonicalDouble (canonicalDouble bits) = canonicalDouble bits := by
  unfold canonicalDouble
  split
  · decide
  · rfl

theorem encodeDatum_canonical (datum : Datum) : encodeDatum datum.canonical = encodeDatum datum := by
  cases datum with
  | float bits =>
    simp only [Datum.canonical, ← canonicalSingle_eq, encodeDatum, encodeFloat,
      canonicalSingle_canonicalSingle]
  | double bits =>
    simp only [Datum.canonical, ← canonicalDouble_eq, encodeDatum, encodeDouble,
      canonicalDouble_canonicalDouble]
  | _ => rfl

/-! ## Rows -/

theorem compare_flatMap {fields : List Field} {as bs : List Datum}
    (ha : List.Forall₂ Field.Admits fields as) (hb : List.Forall₂ Field.Admits fields bs) :
    compare (as.flatMap encodeDatum) (bs.flatMap encodeDatum) = List.compareLex Datum.order as bs := by
  induction ha generalizing bs with
  | nil =>
    cases hb
    rfl
  | cons hfirst _ ih =>
    cases hb with
    | cons hfirst' hrest =>
      simp [compare_encodeDatum hfirst.fits hfirst'.fits, ih hrest, List.compareLex_cons_cons]

theorem flatMap_encodeDatum_eq_iff {schema : Schema} {a b : Row} (ha : a.Conforms schema)
    (hb : b.Conforms schema) :
    a.values.flatMap encodeDatum = b.values.flatMap encodeDatum ↔ a.canonical = b.canonical := by
  have hcanonical (row : Row) :
      row.canonical.values.flatMap encodeDatum = row.values.flatMap encodeDatum := by
    simp [canonical, List.flatMap_map, encodeDatum_canonical]
  constructor
  · intro h
    have hread := decode_flatMap ha
    rw [h, decode_flatMap hb] at hread
    exact (Except.ok.inj hread).symm
  · intro h
    rw [← hcanonical a, ← hcanonical b, h]

/-- The encodings of two rows compare like the rows. They are equal exactly when the rows are, with one
value for all that are no number. -/
theorem compare_encodings {schema : Schema} {a b : Row} {bytesA bytesB : Bytes}
    (ha : encode schema a = .ok bytesA) (hb : encode schema b = .ok bytesB) :
    compare bytesA bytesB = a.order b ∧ (bytesA < bytesB ↔ a.order b = .lt) ∧
      (bytesA = bytesB ↔ a.canonical = b.canonical) := by
  obtain ⟨hca, rfl⟩ := encode_eq_ok_iff.1 ha
  obtain ⟨hcb, rfl⟩ := encode_eq_ok_iff.1 hb
  have hcompare := compare_flatMap hca hcb
  refine ⟨hcompare, ?_, flatMap_encodeDatum_eq_iff hca hcb⟩
  rw [← Bytes.compare_eq_lt_iff, hcompare]
  rfl

/-- A text that starts with another comes after it, whatever follows both. -/
theorem compare_encodings_sample :
    (⟨[.string "a", .long 7]⟩ : Row).order ⟨[.string "a\x00", .long (-9)]⟩ = .lt := by
  have hshort : encode ⟨[⟨1, "name", .string, true⟩, ⟨2, "size", .long, true⟩]⟩
      ⟨[.string "a", .long 7]⟩ = .ok [1, 97, 0, 1, 1, 128, 0, 0, 0, 0, 0, 0, 7] := by
    decide +kernel
  have hlong : encode ⟨[⟨1, "name", .string, true⟩, ⟨2, "size", .long, true⟩]⟩
      ⟨[.string "a\x00", .long (-9)]⟩ =
        .ok [1, 97, 0, 255, 0, 1, 1, 127, 255, 255, 255, 255, 255, 255, 247] := by
    decide +kernel
  exact (compare_encodings hshort hlong).2.1.1 (by decide)

end Row

end Spillway
