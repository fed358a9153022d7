import Mathlib.Logic.Function.Iterate
import Spillway.Checksum

/-!
# What the checksum detects

Shifting the register is linear over exclusive or and loses nothing (`shift_xor`,
`shift_injective`), and a register whose low bits are clear is shifted back
(`iterate_shift_shiftLeft`). Up to four bytes therefore enter the register like one word
(`foldl_step_eq`), and no later byte can undo the difference: byte strings that differ only within
four bytes in a row have different checksums (`ofBytes_window`).
-/

namespace Spillway.Checksum

/-! ## One bit -/

theorem ext_bits {a b : UInt32}
    (h : ∀ i < 32, a.toBitVec.getLsbD i = b.toBitVec.getLsbD i) : a = b :=
  UInt32.toBitVec_inj.1 (BitVec.eq_of_getLsbD_eq h)

/-- The polynomial. -/
def poly : UInt32 := 0xEDB88320

theorem and_one_eq_one_iff (r : UInt32) : r &&& 1 = 1 ↔ r.toBitVec.getLsbD 0 = true := by
  have hone : ∀ i, (1 : UInt32).toBitVec.getLsbD i = decide (i = 0) := by
    intro i
    show (1#32).getLsbD i = decide (i = 0)
    simp [BitVec.getLsbD_one]
  constructor
  · intro h
    have hbit := congrArg (fun x => x.toBitVec.getLsbD 0) h
    simpa [UInt32.toBitVec_and, BitVec.getLsbD_and, hone] using hbit
  · intro h
    apply ext_bits
    intro i _
    rw [UInt32.toBitVec_and, BitVec.getLsbD_and, hone]
    by_cases hi : i = 0 <;> simp [hi, h]

/-- Each bit moves down by one; the lowest one decides on the polynomial. -/
theorem getLsbD_shift (r : UInt32) (i : Nat) :
    (shift r).toBitVec.getLsbD i =
      (r.toBitVec.getLsbD (i + 1) ^^ (r.toBitVec.getLsbD 0 && poly.toBitVec.getLsbD i)) := by
  have hshift : (r >>> 1).toBitVec.getLsbD i = r.toBitVec.getLsbD (i + 1) := by
    simp [UInt32.toBitVec_shiftRight, Nat.add_comm]
  unfold shift
  by_cases h : r.toBitVec.getLsbD 0 = true
  · rw [if_pos ((and_one_eq_one_iff r).2 h), UInt32.toBitVec_xor, BitVec.getLsbD_xor, hshift, h,
      Bool.true_and]
    rfl
  · rw [if_neg (mt (and_one_eq_one_iff r).1 h), hshift, Bool.eq_false_iff.2 h, Bool.false_and,
      Bool.xor_false]

theorem shift_xor (a b : UInt32) : shift (a ^^^ b) = shift a ^^^ shift b := by
  apply ext_bits
  intro i _
  simp only [getLsbD_shift, UInt32.toBitVec_xor, BitVec.getLsbD_xor]
  cases a.toBitVec.getLsbD 0 <;> cases b.toBitVec.getLsbD 0 <;> cases poly.toBitVec.getLsbD i <;>
    simp [Bool.xor_comm]

/-- The polynomial has its highest bit, so the bit that falls out can be told from the result. -/
theorem shift_injective : Function.Injective shift := by
  intro a b h
  have hbits : ∀ i, (shift a).toBitVec.getLsbD i = (shift b).toBitVec.getLsbD i := by
    intro i
    rw [h]
  have hlow : a.toBitVec.getLsbD 0 = b.toBitVec.getLsbD 0 := by
    have htop : poly.toBitVec.getLsbD 31 = true := by decide
    have hout : ∀ r : UInt32, r.toBitVec.getLsbD 32 = false :=
      fun r => BitVec.getLsbD_of_ge _ _ (Nat.le_refl _)
    have h31 := hbits 31
    rw [getLsbD_shift, getLsbD_shift, htop, hout, hout] at h31
    simpa using h31
  apply ext_bits
  intro i _
  cases i with
  | zero => exact hlow
  | succ i =>
    have hi := hbits i
    rw [getLsbD_shift, getLsbD_shift, hlow] at hi
    exact Bool.xor_left_inj.1 hi

/-! ## Several bits -/

theorem iterate_shift_xor (n : Nat) (a b : UInt32) :
    shift^[n] (a ^^^ b) = shift^[n] a ^^^ shift^[n] b := by
  induction n generalizing a b with
  | zero => rfl
  | succ n ih => rw [Function.iterate_succ_apply, shift_xor, ih]; rfl

/-- While no one falls out, shifting takes back a shift to the left. -/
theorem iterate_shift_shiftLeft {x : BitVec 32} {n : Nat}
    (h : ∀ i, 32 ≤ i + n → x.getLsbD i = false) :
    shift^[n] (UInt32.ofBitVec (x <<< n)) = UInt32.ofBitVec x := by
  induction n with
  | zero => simp
  | succ n ih =>
    have hone : shift (UInt32.ofBitVec (x <<< (n + 1))) = UInt32.ofBitVec (x <<< n) := by
      apply ext_bits
      intro i hi
      rw [getLsbD_shift]
      simp only [BitVec.getLsbD_shiftLeft, Nat.zero_lt_succ, decide_true, Bool.not_true, Bool.and_false,
        Bool.false_and, Bool.xor_false, Nat.add_sub_add_right, Nat.add_lt_add_iff_right]
      by_cases htop : i + 1 < 32
      · simp [hi, htop]
      · -- the highest bit of the result was shifted out, and it was clear
        have hclear : n ≤ i → x.getLsbD (i - n) = false := fun hn => h (i - n) (by omega)
        by_cases hn : i < n
        · simp [hn]
        · simp [hclear (Nat.not_lt.1 hn)]
    rw [Function.iterate_succ_apply, hone]
    apply ih
    intro i hi
    exact h i (by omega)

/-! ## Up to four bytes -/

/-- Bytes as one word, the first byte lowest. -/
def word : Bytes → BitVec 32
  | [] => 0
  | b :: bytes => b.toUInt32.toBitVec ^^^ (word bytes <<< 8)

theorem getLsbD_byte (b : UInt8) (i : Nat) :
    b.toUInt32.toBitVec.getLsbD i = b.toBitVec.getLsbD i := by
  rw [UInt8.toBitVec_toUInt32, BitVec.getLsbD_setWidth]
  by_cases h : i < 32
  · rw [decide_eq_true h, Bool.true_and]
  · rw [decide_eq_false h, Bool.false_and, BitVec.getLsbD_of_ge _ _ (by omega)]

theorem getLsbD_word_of_le {bytes : Bytes} {i : Nat} (h : 8 * bytes.length ≤ i) :
    (word bytes).getLsbD i = false := by
  induction bytes generalizing i with
  | nil => simp [word]
  | cons b bytes ih =>
    rw [List.length_cons] at h
    rw [word, BitVec.getLsbD_xor, getLsbD_byte, BitVec.getLsbD_of_ge _ _ (by omega),
      BitVec.getLsbD_shiftLeft, ih (by omega)]
    simp

/-- A word tells its bytes. -/
theorem word_injective {a b : Bytes} (hlength : a.length = b.length) (hfour : a.length ≤ 4)
    (h : word a = word b) : a = b := by
  induction a generalizing b with
  | nil =>
    rw [List.length_nil] at hlength
    exact (List.length_eq_zero_iff.1 hlength.symm).symm
  | cons x a ih =>
    cases b with
    | nil => cases hlength
    | cons y b =>
      simp only [List.length_cons, Nat.add_right_cancel_iff] at hlength hfour
      have hbits : ∀ i, (word (x :: a)).getLsbD i = (word (y :: b)).getLsbD i := by
        intro i
        rw [h]
      simp only [word, BitVec.getLsbD_xor, getLsbD_byte, BitVec.getLsbD_shiftLeft] at hbits
      have hfirst : x = y := by
        rw [← UInt8.toBitVec_inj]
        apply BitVec.eq_of_getLsbD_eq
        intro i hi
        simpa [hi] using hbits i
      have hrest : word a = word b := by
        apply BitVec.eq_of_getLsbD_eq
        intro i hi
        by_cases hin : i + 8 < 32
        · have hbit := hbits (i + 8)
          have hlow : ¬ i + 8 < 8 := by omega
          rw [hfirst] at hbit
          simpa [hin, hlow] using hbit
        · rw [getLsbD_word_of_le (by omega), getLsbD_word_of_le (by omega)]
      rw [hfirst, ih hlength (by omega) hrest]

theorem step_eq (r : UInt32) (b : UInt8) : step r b = shift^[8] (r ^^^ b.toUInt32) := rfl

/-- Up to four bytes enter the register like one word. -/
theorem foldl_step_eq (r : UInt32) {bytes : Bytes} (hfour : bytes.length ≤ 4) :
    bytes.foldl step r = shift^[8 * bytes.length] (r ^^^ UInt32.ofBitVec (word bytes)) := by
  induction bytes generalizing r with
  | nil => exact (UInt32.xor_zero).symm
  | cons b bytes ih =>
    rw [List.length_cons] at hfour
    have hback : UInt32.ofBitVec (word bytes) = shift^[8] (UInt32.ofBitVec (word bytes <<< 8)) := by
      refine (iterate_shift_shiftLeft ?_).symm
      intro i hi
      exact getLsbD_word_of_le (by omega)
    have hword : UInt32.ofBitVec (word (b :: bytes)) =
        b.toUInt32 ^^^ UInt32.ofBitVec (word bytes <<< 8) := rfl
    calc (b :: bytes).foldl step r
        = bytes.foldl step (step r b) := rfl
      _ = shift^[8 * bytes.length] (step r b ^^^ UInt32.ofBitVec (word bytes)) := ih _ (by omega)
      _ = shift^[8 * bytes.length] (shift^[8] (r ^^^ UInt32.ofBitVec (word (b :: bytes)))) := by
        rw [step_eq, hback, ← iterate_shift_xor, UInt32.xor_assoc, hword]
      _ = shift^[8 * (b :: bytes).length] (r ^^^ UInt32.ofBitVec (word (b :: bytes))) := by
        rw [← Function.iterate_add_apply, List.length_cons, Nat.mul_succ]

theorem step_left_injective (b : UInt8) : Function.Injective fun r => step r b := by
  intro r r' h
  exact (UInt32.xor_left_inj _).1 (shift_injective.iterate 8 h)

theorem foldl_step_injective (bytes : Bytes) : Function.Injective fun r => bytes.foldl step r := by
  induction bytes with
  | nil => exact fun _ _ h => h
  | cons b bytes ih => exact fun r r' h => step_left_injective b (ih h)

/-- Byte strings that differ only within four bytes in a row have different checksums. -/
theorem ofBytes_window {front back a b : Bytes} (hlength : a.length = b.length)
    (hfour : a.length ≤ 4) (h : ofBytes (front ++ a ++ back) = ofBytes (front ++ b ++ back)) :
    a = b := by
  have hregister : (front ++ a ++ back).foldl step start.register =
      (front ++ b ++ back).foldl step start.register := UInt32.not_inj.1 h
  simp only [List.foldl_append] at hregister
  have hwindow := foldl_step_injective back hregister
  have hfour' : b.length ≤ 4 := by omega
  rw [foldl_step_eq _ hfour, foldl_step_eq _ hfour', hlength] at hwindow
  have hword := (UInt32.xor_right_inj _).1 (shift_injective.iterate _ hwindow)
  exact word_injective hlength hfour (UInt32.ofBitVec.inj hword)

end Spillway.Checksum
