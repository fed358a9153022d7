import Mathlib.Algebra.Order.Field.Power
import Mathlib.Algebra.Order.Field.Rat
import Mathlib.Tactic.Linarith
import Mathlib.Tactic.Ring
import Spillway.Decimal.Ieee
import Spillway.Proofs.Bytes

/-!
# The total order of IEEE 754 numbers

`Value.totalOrder` compares what bits stand for: numbers by their size, the negative zero before the
other, the infinities outside of all numbers, and above all of them what is no number. The bits that
`order` makes compare like that (`compare_order`), and `ofOrder` takes them back (`ofOrder_order`).

Without their sign, bits are a magnitude: a larger exponent, or the same and a larger fraction. Finite
numbers are multiples of the smallest one, `steps` of them, and a larger magnitude has more steps
(`steps_lt`).
-/

namespace Spillway.Ieee

/-! ## Values -/

namespace Value

/-- From below: minus infinity, the numbers, infinity, and what is no number. -/
def rank : Value → Nat
  | infinite true => 0
  | finite _ _ _ => 1
  | infinite false => 2
  | nan => 3

/-- The number that a finite value is. -/
def number : Value → ℚ
  | finite negative mantissa exponent => (if negative then -1 else 1) * (mantissa * 2 ^ exponent)
  | _ => 0

def isNegative : Value → Bool
  | finite negative _ _ => negative
  | infinite negative => negative
  | nan => false

/-- The total order: by the numbers, and of the two zeros the negative one first. -/
def totalOrder (a b : Value) : Ordering :=
  (compare a.rank b.rank).then
    ((compare a.number b.number).then (compare b.isNegative a.isNegative))

theorem eq_nan_of_rank {a : Value} (h : a.rank = 3) : a = nan := by
  rcases a with _ | (_ | _) | _ <;> first | rfl | cases h

theorem totalOrder_self (a : Value) : a.totalOrder a = .eq := by
  simp [totalOrder]

theorem totalOrder_swap (a b : Value) : (a.totalOrder b).swap = b.totalOrder a := by
  simp only [totalOrder, Ordering.swap_then, ← Std.OrientedOrd.eq_swap]

theorem totalOrder_eq_lt {a b : Value} (h : a.rank < b.rank ∨ a.rank = b.rank ∧
    (a.number < b.number ∨ a.number = b.number ∧ b.isNegative < a.isNegative)) :
    a.totalOrder b = .lt := by
  rw [totalOrder, Ordering.then_eq_lt, Ordering.then_eq_lt, Nat.compare_eq_lt, Nat.compare_eq_eq,
    compare_lt_iff_lt, compare_eq_iff_eq, compare_lt_iff_lt]
  exact h

end Value

/-! ## Bits -/

variable (l : Layout)

/-- How many magnitudes there are. -/
def Layout.magnitudes : Nat := l.exponents * l.fractions

/-- The magnitude of the infinities; those above it are no numbers. -/
def Layout.top : Nat := (l.exponents - 1) * l.fractions

/-- Bits without their sign. -/
def magnitude (bits : Nat) : Nat := exponent l bits * l.fractions + fraction l bits

theorem fraction_lt (bits : Nat) : fraction l bits < l.fractions :=
  Nat.mod_lt _ (Nat.two_pow_pos _)

theorem exponent_lt (bits : Nat) : exponent l bits < l.exponents :=
  Nat.mod_lt _ (Nat.two_pow_pos _)

theorem Layout.width_pos : 0 < l.width := by
  have : l.width = 1 + l.exponentBits + l.fractionBits := rfl
  omega

theorem magnitudes_eq : l.magnitudes = 2 ^ (l.width - 1) := by
  have hwidth : l.width - 1 = l.exponentBits + l.fractionBits := by
    have : l.width = 1 + l.exponentBits + l.fractionBits := rfl
    omega
  rw [hwidth, pow_add]
  rfl

theorem two_pow_width : 2 ^ l.width = 2 * l.magnitudes := by
  rw [magnitudes_eq, ← pow_succ', Nat.sub_one_add_one l.width_pos.ne']

theorem magnitude_eq (bits : Nat) : magnitude l bits = bits % l.magnitudes := by
  rw [Layout.magnitudes, Nat.mul_comm, Nat.mod_mul, magnitude, exponent, fraction, Nat.add_comm,
    Nat.mul_comm]

theorem isNegative_iff {bits : Nat} (h : bits < 2 ^ l.width) :
    isNegative l bits = true ↔ l.magnitudes ≤ bits := by
  rw [two_pow_width] at h
  rw [isNegative, decide_eq_true_iff, Nat.div_div_eq_div_mul, Nat.mul_comm, ← Layout.magnitudes]
  by_cases hle : l.magnitudes ≤ bits
  · have hone : bits / l.magnitudes = 1 := Nat.div_eq_of_lt_le (by omega) (by omega)
    simp [hone, hle]
  · simp [Nat.div_eq_of_lt (Nat.not_le.1 hle), hle]

/-- The place of bits in the total order, counted from the positive zero. -/
def place (bits : Nat) : Int :=
  if isNegative l bits then -1 - (magnitude l bits : Int) else magnitude l bits

theorem and_not_intMin {w : Nat} {bits : BitVec w} (h : bits.msb = false) :
    bits &&& ~~~ BitVec.intMin w = bits := by
  apply BitVec.eq_of_getLsbD_eq
  intro i hi
  rw [BitVec.msb_eq_getLsbD_last] at h
  rw [BitVec.getLsbD_and, BitVec.getLsbD_not, BitVec.getLsbD_intMin]
  by_cases hlast : i + 1 = w
  · have hi : i = w - 1 := by omega
    simp [hi, h]
  · simp [hi, hlast]

theorem ofOrder_order {w : Nat} (hw : 0 < w) (bits : BitVec w) : ofOrder (order bits) = bits := by
  unfold order ofOrder
  by_cases h : bits.msb = true
  · simp [h, hw]
  · rw [Bool.not_eq_true] at h
    have hmsb : (bits ||| BitVec.intMin w).msb = true := by
      simp [BitVec.msb_or, BitVec.msb_intMin, hw]
    simp only [h, Bool.false_eq_true, if_false, hmsb, if_true]
    rw [BitVec.and_or_distrib_right, and_not_intMin h, BitVec.and_not_self]
    exact BitVec.or_zero

theorem order_ofOrder {w : Nat} (hw : 0 < w) (bits : BitVec w) : order (ofOrder bits) = bits := by
  unfold order ofOrder
  by_cases h : bits.msb = true
  · have hmsb : (bits &&& ~~~ BitVec.intMin w).msb = false := by
      simp [BitVec.msb_and, BitVec.msb_intMin, hw]
    simp only [h, if_true, hmsb, Bool.false_eq_true, if_false]
    apply BitVec.eq_of_getLsbD_eq
    intro i hi
    rw [BitVec.msb_eq_getLsbD_last] at h
    rw [BitVec.getLsbD_or, BitVec.getLsbD_and, BitVec.getLsbD_not, BitVec.getLsbD_intMin]
    by_cases hlast : i + 1 = w
    · obtain rfl : i = w - 1 := by omega
      simp [h, hlast]
    · simp [hi, hlast]
  · rw [Bool.not_eq_true] at h
    simp [h, hw]

theorem toNat_or_intMin {w : Nat} (hw : 0 < w) {bits : BitVec w} (h : bits.toNat < 2 ^ (w - 1)) :
    (bits ||| BitVec.intMin w).toNat = bits.toNat + 2 ^ (w - 1) := by
  have hor := Nat.two_pow_add_eq_or_of_lt h 1
  rw [Nat.mul_one] at hor
  rw [BitVec.toNat_or, BitVec.toNat_intMin_of_pos hw, Nat.or_comm, ← hor, Nat.add_comm]

/-- `order` moves the places up so far that none is below zero. -/
theorem toNat_order (bits : BitVec l.width) :
    ((order bits).toNat : Int) = place l bits.toNat + l.magnitudes := by
  have hlt := bits.isLt
  have hsign := isNegative_iff l hlt
  rw [two_pow_width] at hlt
  rw [order, BitVec.msb_eq_decide, ← magnitudes_eq, place, magnitude_eq]
  by_cases hle : l.magnitudes ≤ bits.toNat
  · have hmod : bits.toNat % l.magnitudes = bits.toNat - l.magnitudes := by
      rw [Nat.mod_eq_sub_mod hle, Nat.mod_eq_of_lt (by omega)]
    rw [if_pos (decide_eq_true hle), if_pos (hsign.2 hle), BitVec.toNat_not, two_pow_width, hmod]
    omega
  · rw [if_neg (by simpa using hle), if_neg fun h => hle (hsign.1 h),
      toNat_or_intMin l.width_pos (by rw [← magnitudes_eq]; omega), ← magnitudes_eq,
      Nat.mod_eq_of_lt (Nat.not_le.1 hle)]
    omega

/-! ## Magnitudes -/

/-- A finite number in units of the smallest positive one. -/
def steps (bits : Nat) : Nat :=
  if exponent l bits = 0 then fraction l bits
  else (l.fractions + fraction l bits) * 2 ^ (exponent l bits - 1)

/-- The smallest positive number. -/
def Layout.unit : ℚ := 2 ^ (1 - ((l.exponents : Int) / 2 - 1 + l.fractionBits))

theorem Layout.unit_pos : 0 < l.unit := zpow_pos (by norm_num) _

theorem value_cases (bits : Nat) :
    value l bits = .nan ∧ l.top < magnitude l bits ∨
    value l bits = .infinite (isNegative l bits) ∧ magnitude l bits = l.top ∨
    (∃ mantissa exponent, value l bits = .finite (isNegative l bits) mantissa exponent ∧
      mantissa * 2 ^ exponent = steps l bits * l.unit) ∧ magnitude l bits < l.top := by
  have hfraction := fraction_lt l bits
  have hexponent := exponent_lt l bits
  unfold magnitude Layout.top value
  by_cases hlast : exponent l bits = l.exponents - 1
  · rw [if_pos hlast, hlast]
    by_cases hzero : fraction l bits = 0
    · rw [if_pos hzero, hzero]
      exact .inr (.inl ⟨rfl, rfl⟩)
    · rw [if_neg hzero]
      exact .inl ⟨rfl, by omega⟩
  · have hbelow : exponent l bits * l.fractions + fraction l bits <
        (l.exponents - 1) * l.fractions := by
      have hle : (exponent l bits + 1) * l.fractions ≤ (l.exponents - 1) * l.fractions :=
        Nat.mul_le_mul_right _ (by omega)
      rw [Nat.add_mul] at hle
      omega
    refine .inr (.inr ⟨?_, hbelow⟩)
    rw [if_neg hlast]
    unfold steps Layout.unit
    by_cases hfirst : exponent l bits = 0
    · rw [if_pos hfirst, if_pos hfirst]
      exact ⟨_, _, rfl, rfl⟩
    · rw [if_neg hfirst, if_neg hfirst]
      refine ⟨_, _, rfl, ?_⟩
      have hsplit : (exponent l bits : Int) - (l.exponents / 2 - 1 + l.fractionBits) =
          ((exponent l bits - 1 : ℕ) : Int) + (1 - (l.exponents / 2 - 1 + l.fractionBits)) := by
        omega
      rw [hsplit, zpow_add₀ two_ne_zero, zpow_natCast, ← mul_assoc]
      push_cast
      rfl

theorem isNan_iff (bits : Nat) : isNan l bits = true ↔ l.top < magnitude l bits := by
  rw [isNan, decide_eq_true_iff]
  rcases value_cases l bits with ⟨hv, hm⟩ | ⟨hv, hm⟩ | ⟨⟨m, e, hv, -⟩, hm⟩
  · simp [hv, hm]
  · simp [hv, hm]
  · simp only [hv, reduceCtorEq, false_iff]
    omega

theorem isNan_iff_and (bits : Nat) :
    isNan l bits = true ↔ l.top < bits &&& (l.magnitudes - 1) := by
  rw [isNan_iff, magnitude_eq, magnitudes_eq, Nat.and_two_pow_sub_one_eq_mod]

theorem steps_lt_pow (bits : Nat) :
    steps l bits < l.fractions * 2 ^ exponent l bits := by
  have hfraction := fraction_lt l bits
  unfold steps
  by_cases hfirst : exponent l bits = 0
  · rw [if_pos hfirst, hfirst, pow_zero, mul_one]
    exact hfraction
  · have hpow : 2 ^ exponent l bits = 2 * 2 ^ (exponent l bits - 1) := by
      rw [← pow_succ', Nat.sub_one_add_one hfirst]
    rw [if_neg hfirst, hpow, ← mul_assoc]
    exact Nat.mul_lt_mul_of_pos_right (by omega) (Nat.two_pow_pos _)

/-- A larger magnitude has more steps: the next exponent starts where the one before ends. -/
theorem steps_lt {a b : Nat} (h : magnitude l a < magnitude l b) : steps l a < steps l b := by
  have ha := fraction_lt l a
  unfold magnitude at h
  rcases Nat.lt_trichotomy (exponent l a) (exponent l b) with hlt | heq | hgt
  · calc steps l a < l.fractions * 2 ^ exponent l a := steps_lt_pow l a
      _ ≤ (l.fractions + fraction l b) * 2 ^ (exponent l b - 1) :=
        Nat.mul_le_mul (by omega) (Nat.pow_le_pow_right (by omega) (by omega))
      _ = steps l b := by rw [steps, if_neg (by omega)]
  · rw [heq] at h
    unfold steps
    rw [heq]
    split
    · omega
    · exact Nat.mul_lt_mul_of_pos_right (by omega) (Nat.two_pow_pos _)
  · have hle : (exponent l b + 1) * l.fractions ≤ exponent l a * l.fractions :=
      Nat.mul_le_mul_right _ hgt
    have hb := fraction_lt l b
    rw [Nat.add_mul] at hle
    omega

/-! ## The order of the bits -/

/-- The place tells what kind of value it is, unless what is no number is negative. -/
theorem rank_value {bits : Nat} (h : value l bits = .nan → isNegative l bits = false) :
    -1 - (l.top : Int) ≤ place l bits ∧ (value l bits).rank =
      if place l bits = -1 - l.top then 0 else if place l bits < l.top then 1
      else if place l bits = l.top then 2 else 3 := by
  unfold place
  rcases value_cases l bits with ⟨hv, hm⟩ | ⟨hv, hm⟩ | ⟨⟨m, e, hv, -⟩, hm⟩
  · rw [hv, h hv, if_neg Bool.false_ne_true, Value.rank]
    grind
  · rw [hv, hm]
    cases isNegative l bits <;> simp only [Value.rank] <;> grind
  · rw [hv, Value.rank]
    grind

theorem number_value {bits : Nat} (hv : (value l bits).rank = 1) :
    (value l bits).isNegative = isNegative l bits ∧
      (value l bits).number = (if isNegative l bits then -1 else 1) * (steps l bits * l.unit) := by
  rcases value_cases l bits with ⟨h, -⟩ | ⟨h, -⟩ | ⟨⟨m, e, h, hsize⟩, -⟩
  · rw [h] at hv
    cases hv
  · rw [h] at hv
    cases hn : isNegative l bits <;> rw [hn] at hv <;> cases hv
  · rw [h, Value.isNegative, Value.number, hsize]
    exact ⟨rfl, rfl⟩

/-- Of two finite numbers the one with the lower place is smaller, or it is the negative zero. -/
theorem number_lt {a b : Nat} (h : place l a < place l b) (ha : (value l a).rank = 1)
    (hb : (value l b).rank = 1) :
    (value l a).number < (value l b).number ∨ (value l a).number = (value l b).number ∧
      (value l b).isNegative < (value l a).isNegative := by
  obtain ⟨hsa, hna⟩ := number_value l ha
  obtain ⟨hsb, hnb⟩ := number_value l hb
  have hunit := l.unit_pos
  unfold place at h
  rw [hsa, hsb, hna, hnb]
  generalize isNegative l a = negativeA at h ⊢
  generalize isNegative l b = negativeB at h ⊢
  cases negativeA <;> cases negativeB <;>
    simp only [Bool.false_eq_true, if_true, if_false] at h ⊢
  · have hlt : (steps l a : ℚ) < steps l b := by exact_mod_cast steps_lt l (by omega)
    exact .inl (by nlinarith)
  · omega
  · have hposa : (0 : ℚ) ≤ steps l a * l.unit := by positivity
    have hposb : (0 : ℚ) ≤ steps l b * l.unit := by positivity
    rcases lt_or_eq_of_le (show -1 * (steps l a * l.unit) ≤ 1 * (steps l b * l.unit) by linarith) with
      hlt | heq
    · exact .inl hlt
    · exact .inr ⟨heq, by decide⟩
  · have hlt : (steps l b : ℚ) < steps l a := by exact_mod_cast steps_lt l (by omega)
    exact .inl (by nlinarith)

/-- The lower of two places comes first, as long as what is no number is not negative, and not both
are no numbers. -/
theorem totalOrder_of_place_lt {a b : Nat} (hnan : value l a = .nan → value l b ≠ .nan)
    (ha : value l a = .nan → isNegative l a = false)
    (hb : value l b = .nan → isNegative l b = false) (h : place l a < place l b) :
    (value l a).totalOrder (value l b) = .lt := by
  apply Value.totalOrder_eq_lt
  obtain ⟨hlow, hra⟩ := rank_value l ha
  obtain ⟨-, hrb⟩ := rank_value l hb
  by_cases hfinite : (value l a).rank = 1 ∧ (value l b).rank = 1
  · exact .inr ⟨hfinite.1.trans hfinite.2.symm, number_lt l h hfinite.1 hfinite.2⟩
  · have hnans : ¬ ((value l a).rank = 3 ∧ (value l b).rank = 3) :=
      fun hr => hnan (Value.eq_nan_of_rank hr.1) (Value.eq_nan_of_rank hr.2)
    grind

variable {l}

/-- Bits with one pattern for all values that are no number. -/
def canonical (nan bits : BitVec l.width) : BitVec l.width :=
  if isNan l bits.toNat then nan else bits

variable {nan a b : BitVec l.width}

theorem value_canonical (hnan : value l nan.toNat = .nan) (bits : BitVec l.width) :
    value l (canonical nan bits).toNat = value l bits.toNat := by
  unfold canonical
  split
  · next h => rw [hnan, of_decide_eq_true h]
  · rfl

theorem canonical_eq_nan (hnan : value l nan.toNat = .nan) {bits : BitVec l.width}
    (h : value l (canonical nan bits).toNat = .nan) : canonical nan bits = nan := by
  rw [value_canonical hnan] at h
  rw [canonical, isNan, if_pos (decide_eq_true h)]

/-- The lower place of bits, as `order` counts it, comes first. -/
theorem totalOrder_of_order_lt (hnan : value l nan.toNat = .nan)
    (hpositive : isNegative l nan.toNat = false)
    (h : (order (canonical nan a)).toNat < (order (canonical nan b)).toNat) :
    (value l a.toNat).totalOrder (value l b.toNat) = .lt := by
  have hplace : place l (canonical nan a).toNat < place l (canonical nan b).toNat := by
    have ha := toNat_order l (canonical nan a)
    have hb := toNat_order l (canonical nan b)
    omega
  rw [← value_canonical hnan a, ← value_canonical hnan b]
  refine totalOrder_of_place_lt l (fun ha hb => ?_) (fun ha => ?_) (fun hb => ?_) hplace
  · rw [canonical_eq_nan hnan ha, canonical_eq_nan hnan hb] at hplace
    exact lt_irrefl _ hplace
  · rw [canonical_eq_nan hnan ha, hpositive]
  · rw [canonical_eq_nan hnan hb, hpositive]

/-- Bits in which one positive pattern stands for all values that are no number compare, once `order` has
changed them, in the total order. -/
theorem compare_order (hnan : value l nan.toNat = .nan) (hpositive : isNegative l nan.toNat = false)
    (a b : BitVec l.width) :
    compare (order (canonical nan a)).toNat (order (canonical nan b)).toNat =
      (value l a.toNat).totalOrder (value l b.toNat) := by
  rcases Nat.lt_trichotomy (order (canonical nan a)).toNat (order (canonical nan b)).toNat with
    hlt | heq | hgt
  · rw [Nat.compare_eq_lt.2 hlt, totalOrder_of_order_lt hnan hpositive hlt]
  · have hab : canonical nan a = canonical nan b := by
      rw [← ofOrder_order l.width_pos (canonical nan a), BitVec.eq_of_toNat_eq heq,
        ofOrder_order l.width_pos]
    rw [Nat.compare_eq_eq.2 heq, ← value_canonical hnan a, ← value_canonical hnan b, hab,
      Value.totalOrder_self]
  · rw [Nat.compare_eq_gt.2 hgt, ← Value.totalOrder_swap, totalOrder_of_order_lt hnan hpositive hgt]
    rfl

end Spillway.Ieee
