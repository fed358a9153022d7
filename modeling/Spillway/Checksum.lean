import Spillway.Bytes

/-!
# The CRC-32 checksum

The reflected CRC-32 with polynomial `0xEDB88320`: a register of 32 bits that starts with all bits
set, takes one byte at a time and is inverted at the end. A checksum is taken piece by piece:
`update` over two pieces is `update` over both in a row.
-/

namespace Spillway

/-- The register of a running checksum. -/
structure Checksum where
  register : UInt32
  deriving DecidableEq, Repr

namespace Checksum

/-- One bit: shift to the right, and fold the polynomial in when a one falls out. -/
def shift (r : UInt32) : UInt32 :=
  if r &&& 1 = 1 then (r >>> 1) ^^^ 0xEDB88320 else r >>> 1

/-- One byte enters the low end of the register and is shifted through it. -/
def step (r : UInt32) (b : UInt8) : UInt32 :=
  shift (shift (shift (shift (shift (shift (shift (shift (r ^^^ b.toUInt32))))))))

def start : Checksum := ⟨0xFFFFFFFF⟩

def update (c : Checksum) (bytes : Bytes) : Checksum :=
  ⟨bytes.foldl step c.register⟩

def value (c : Checksum) : UInt32 := ~~~ c.register

/-- The CRC-32 of a byte string. -/
def ofBytes (bytes : Bytes) : UInt32 := (start.update bytes).value

@[simp] theorem update_nil (c : Checksum) : c.update [] = c := rfl

@[simp] theorem update_update (c : Checksum) (a b : Bytes) :
    (c.update a).update b = c.update (a ++ b) := by
  simp [update, List.foldl_append]

/-- How many bytes are taken at once when a file is verified. -/
def chunkSize : Nat := 64 * 1024

/-- Takes bytes chunk by chunk. -/
def updateChunks (c : Checksum) (bytes : Bytes) : Checksum :=
  if bytes = [] then c
  else updateChunks (c.update (bytes.take chunkSize)) (bytes.drop chunkSize)
termination_by bytes.length
decreasing_by
  have := List.length_pos_iff.2 ‹bytes ≠ []›
  rw [List.length_drop, chunkSize]
  omega

theorem updateChunks_eq (c : Checksum) (bytes : Bytes) : c.updateChunks bytes = c.update bytes := by
  fun_induction updateChunks c bytes with
  | case1 c => rfl
  | case2 c bytes hne ih => rw [ih, update_update, List.take_append_drop]

/-- The CRC-32 of bytes that are read chunk by chunk. -/
def ofChunks (bytes : Bytes) : UInt32 := (start.updateChunks bytes).value

/-- The chunks do not show in the checksum. -/
@[simp] theorem ofChunks_eq (bytes : Bytes) : ofChunks bytes = ofBytes bytes := by
  rw [ofChunks, updateChunks_eq, ofBytes]

end Checksum

end Spillway
