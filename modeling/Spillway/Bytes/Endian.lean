import Spillway.Bytes

/-!
# Words as bytes

Numbers written in a fixed number of bytes, least significant byte first (`LittleEndian`) or last
(`BigEndian`). Writing what was read gives the bytes back.
-/

namespace Spillway

namespace LittleEndian

/-- The `width` low bytes of `n`, least significant first. -/
def encode : Nat → Nat → Bytes
  | 0, _ => []
  | width + 1, n => UInt8.ofNat n :: encode width (n / 256)

def decode : Bytes → Nat
  | [] => 0
  | b :: rest => b.toNat + 256 * decode rest

@[simp] theorem length_encode (width n : Nat) : (encode width n).length = width := by
  induction width generalizing n with
  | zero => rfl
  | succ width ih => simp [encode, ih]

theorem encode_decode (bytes : Bytes) : encode bytes.length (decode bytes) = bytes := by
  induction bytes with
  | nil => rfl
  | cons b rest ih =>
    have hb := b.toNat_lt
    have hdiv : (b.toNat + 256 * decode rest) / 256 = decode rest := by omega
    have hlow : UInt8.ofNat (b.toNat + 256 * decode rest) = b := by
      apply UInt8.toNat_inj.1
      rw [UInt8.toNat_ofNat']
      omega
    simp [encode, decode, hdiv, hlow, ih]

end LittleEndian

namespace BigEndian

/-- The `width` low bytes of `n`, most significant first. -/
def encode (width n : Nat) : Bytes :=
  (LittleEndian.encode width n).reverse

def decode (bytes : Bytes) : Nat :=
  LittleEndian.decode bytes.reverse

@[simp] theorem length_encode (width n : Nat) : (encode width n).length = width := by
  simp [encode]

theorem encode_decode (bytes : Bytes) : encode bytes.length (decode bytes) = bytes := by
  have h := LittleEndian.encode_decode bytes.reverse
  rw [List.length_reverse] at h
  simp [encode, decode, h]

end BigEndian

end Spillway
