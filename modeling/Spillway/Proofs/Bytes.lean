import Spillway.Bytes.EndianLaws

/-!
# The order of byte strings

Byte strings are compared byte by byte. Strings that start with parts of the same length are compared
by these parts first (`compare_append`), and numbers of the same width, most significant byte first,
like the numbers (`BigEndian.compare_encode`).
-/

namespace Spillway

/-- Two comparisons have the same outcome when each of them says "less" and "greater" at once. -/
theorem compare_congr {α β : Type} [Ord α] [LT α] [LE α] [Std.LawfulOrderOrd α]
    [Std.LawfulOrderLT α] [Ord β] [LT β] [LE β] [Std.LawfulOrderOrd β] [Std.LawfulOrderLT β]
    {a b : α} {c d : β} (hlt : a < b ↔ c < d) (hgt : b < a ↔ d < c) : compare a b = compare c d := by
  rw [← Std.compare_eq_lt, ← Std.compare_eq_lt] at hlt
  rw [← Std.compare_eq_gt, ← Std.compare_eq_gt] at hgt
  cases hab : compare a b <;> cases hcd : compare c d <;> simp_all

namespace Bytes

variable {a b c d : Bytes}

/-- Keys are in the order in which their bytes compare. -/
theorem compare_eq_lt_iff : compare a b = .lt ↔ a < b := by
  induction a generalizing b with
  | nil => cases b <;> simp
  | cons x a ih =>
    cases b with
    | nil => simp
    | cons y b =>
      rw [List.compare_cons_cons, Ordering.then_eq_lt, ih, List.cons_lt_cons_iff,
        Std.compare_eq_lt, Std.LawfulEqOrd.compare_eq_iff_eq]

theorem compare_append (h : a.length = b.length) :
    compare (a ++ c) (b ++ d) = (compare a b).then (compare c d) := by
  induction a generalizing b with
  | nil =>
    rw [List.eq_nil_of_length_eq_zero h.symm]
    simp
  | cons x a ih =>
    cases b with
    | nil => cases h
    | cons y b =>
      rw [List.cons_append, List.cons_append, List.compare_cons_cons, List.compare_cons_cons,
        ih (Nat.succ.inj h), Ordering.then_assoc]

end Bytes

namespace BigEndian

theorem encode_succ (width n : Nat) :
    encode (width + 1) n = encode width (n / 256) ++ [UInt8.ofNat n] := by
  simp [encode, LittleEndian.encode]

theorem compare_ofNat (m n : Nat) :
    compare (UInt8.ofNat m) (UInt8.ofNat n) = compare (m % 256) (n % 256) :=
  compare_congr (by simp [UInt8.lt_iff_toNat_lt]) (by simp [UInt8.lt_iff_toNat_lt])

theorem compare_div_then_mod (m n : Nat) :
    (compare (m / 256) (n / 256)).then (compare (m % 256) (n % 256)) = compare m n := by
  rcases Nat.lt_trichotomy (m / 256) (n / 256) with h | h | h
  · have hlt : m < n := by omega
    rw [Nat.compare_eq_lt.2 h, Nat.compare_eq_lt.2 hlt, Ordering.lt_then]
  · rw [Nat.compare_eq_eq.2 h, Ordering.eq_then]
    exact compare_congr (by omega) (by omega)
  · have hgt : n < m := by omega
    rw [Nat.compare_eq_gt.2 h, Nat.compare_eq_gt.2 hgt, Ordering.gt_then]

/-- Numbers of the same width have the order of their bytes. -/
theorem compare_encode {width m n : Nat} (hm : m < 256 ^ width) (hn : n < 256 ^ width) :
    compare (encode width m) (encode width n) = compare m n := by
  induction width generalizing m n with
  | zero =>
    rw [Nat.pow_zero, Nat.lt_one_iff] at hm hn
    rw [hm, hn]
    rfl
  | succ width ih =>
    rw [Nat.pow_succ] at hm hn
    rw [encode_succ, encode_succ,
      Bytes.compare_append (by rw [length_encode, length_encode]), ih (by omega) (by omega),
      List.compare_cons_cons, List.compare_nil_nil, compare_ofNat, Ordering.then_eq]
    exact compare_div_then_mod m n

end BigEndian

end Spillway
