import Spillway.Bytes

/-!
# UTF-8

`encode` gives the bytes of a text, `decode` the text of well-formed bytes. Bytes that are not
well-formed are refused with the place of the first fault and the number of bytes that belong to
the broken sequence. `decode_encode` and `eq_encode_of_decode` say that reading accepts exactly
what writing produces.
-/

namespace Spillway.Utf8

/-- Where bytes stop being UTF-8. `length` counts the bytes of the broken sequence that were
acceptable; it is `none` when the bytes end inside a sequence. -/
structure Fault where
  index : Nat
  length : Option Nat
  deriving DecidableEq, Repr

namespace Fault

def message (f : Fault) : String :=
  match f.length with
  | some length => s!"invalid utf-8 sequence of {length} bytes from index {f.index}"
  | none => s!"incomplete utf-8 byte sequence from index {f.index}"

end Fault

/-- The ranges that the bytes after `lead` have to lie in; `none` when no sequence starts so. -/
def following (lead : UInt8) : Option (List (UInt8 × UInt8)) :=
  let tail : UInt8 × UInt8 := (0x80, 0xBF)
  if lead < 0x80 then some []
  else if lead < 0xC2 then none
  else if lead < 0xE0 then some [tail]
  else if lead = 0xE0 then some [(0xA0, 0xBF), tail]
  else if lead = 0xED then some [(0x80, 0x9F), tail]
  else if lead < 0xF0 then some [tail, tail]
  else if lead = 0xF0 then some [(0x90, 0xBF), tail, tail]
  else if lead < 0xF4 then some [tail, tail, tail]
  else if lead = 0xF4 then some [(0x80, 0x8F), tail, tail]
  else none

/-- The first fault of the bytes at position `here`, inside a sequence that started at `start` and
still owes a byte for each of the ranges. -/
def faultFrom (start here : Nat) : List (UInt8 × UInt8) → Bytes → Option Fault
  | [], [] => none
  | _ :: _, [] => some ⟨start, none⟩
  | [], b :: rest =>
    match following b with
    | some owed => faultFrom here (here + 1) owed rest
    | none => some ⟨here, some 1⟩
  | (low, high) :: owed, b :: rest =>
    if low ≤ b ∧ b ≤ high then faultFrom start (here + 1) owed rest
    else some ⟨start, some (here - start)⟩

def fault? (bytes : Bytes) : Option Fault := faultFrom 0 0 [] bytes

def encode (text : String) : Bytes := text.toByteArray.data.toList

/-- The text that the bytes spell, or the first fault. -/
def decode (bytes : Bytes) : Except Fault String :=
  match String.fromUTF8? ⟨bytes.toArray⟩ with
  | some text => .ok text
  | none => .error ((fault? bytes).getD ⟨0, none⟩)

theorem encode_injective {s t : String} (h : encode s = encode t) : s = t := by
  apply String.toByteArray_inj.1
  apply ByteArray.ext
  exact Array.toList_inj.1 h

theorem decode_encode (text : String) : decode (encode text) = .ok text := by
  have h : (⟨(encode text).toArray⟩ : ByteArray) = text.toByteArray := by
    simp [encode]
  have hv := text.isValidUTF8
  simp only [decode, String.fromUTF8?, h, hv, dite_true]
  rfl

theorem eq_encode_of_decode {bytes : Bytes} {text : String} (h : decode bytes = .ok text) :
    bytes = encode text := by
  simp only [decode, String.fromUTF8?] at h
  split at h
  · next t ht =>
    split at ht
    · injection h with h
      injection ht with ht
      subst h ht
      simp [encode, String.fromUTF8]
    · cases ht
  · cases h

end Spillway.Utf8
