import Mathlib.Algebra.Ring.Nat
import Spillway.Bytes.Endian

/-!
# Words read back

Reading the bytes of a number gives the number modulo `256 ^ width`, so numbers that fit are read
back as they were.
-/

namespace Spillway

namespace LittleEndian

theorem decode_encode (width n : Nat) : decode (encode width n) = n % 256 ^ width := by
  induction width generalizing n with
  | zero => simp [encode, decode, Nat.mod_one]
  | succ width ih =>
    simp only [encode, decode, ih, UInt8.toNat_ofNat', Nat.reducePow]
    rw [Nat.pow_succ, Nat.mul_comm (256 ^ width), Nat.mod_mul]

theorem decode_encode_of_lt {width n : Nat} (h : n < 256 ^ width) :
    decode (encode width n) = n := by
  rw [decode_encode, Nat.mod_eq_of_lt h]

theorem decode_lt (bytes : Bytes) : decode bytes < 256 ^ bytes.length := by
  have h := decode_encode bytes.length (decode bytes)
  rw [encode_decode] at h
  exact h ▸ Nat.mod_lt _ (Nat.pow_pos (by decide))

end LittleEndian

namespace BigEndian

theorem decode_encode (width n : Nat) : decode (encode width n) = n % 256 ^ width := by
  simp [encode, decode, LittleEndian.decode_encode]

end BigEndian

end Spillway
