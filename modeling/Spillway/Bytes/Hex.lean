import Spillway.Bytes

/-!
# Bytes as hexadecimal text

Two digits for each byte, lower-case when written. `decode?_encode` says that reading takes back
what was written.
-/

namespace Spillway.Hex

/-- The digit for a number below 16. -/
def digit (n : Nat) : Char := if n < 10 then Char.ofNat (48 + n) else Char.ofNat (87 + n)

def digit? (c : Char) : Option Nat :=
  if '0' ≤ c ∧ c ≤ '9' then some (c.toNat - 48)
  else if 'a' ≤ c ∧ c ≤ 'f' then some (c.toNat - 87)
  else none

/-- The digits of bytes. -/
def digits (bytes : Bytes) : List Char :=
  bytes.flatMap fun b => [digit (b.toNat / 16), digit (b.toNat % 16)]

/-- The bytes that digits spell, after those `taken` before (in reverse). -/
def ofDigits? (taken : Bytes) : List Char → Option Bytes
  | [] => some taken.reverse
  | [_] => none
  | a :: b :: rest =>
    match digit? a, digit? b with
    | some high, some low => ofDigits? (UInt8.ofNat (16 * high + low) :: taken) rest
    | _, _ => none

def encode (bytes : Bytes) : String := String.ofList (digits bytes)

def decode? (text : String) : Option Bytes := ofDigits? [] text.toList

theorem digit?_digit : ∀ n < 16, digit? (digit n) = some n := by decide

theorem ofDigits?_digits (taken bytes : Bytes) :
    ofDigits? taken (digits bytes) = some (taken.reverse ++ bytes) := by
  induction bytes generalizing taken with
  | nil => simp [digits, ofDigits?]
  | cons b rest ih =>
    have hb := b.toNat_lt
    have hlow : UInt8.ofNat (16 * (b.toNat / 16) + b.toNat % 16) = b := by
      rw [Nat.div_add_mod]
      simp
    have hd : digits (b :: rest) = digit (b.toNat / 16) :: digit (b.toNat % 16) :: digits rest := rfl
    simp [hd, ofDigits?, digit?_digit (b.toNat / 16) (by omega),
      digit?_digit (b.toNat % 16) (by omega), hlow, ih]

theorem decode?_encode (bytes : Bytes) : decode? (encode bytes) = some bytes := by
  simp [decode?, encode, ofDigits?_digits]

end Spillway.Hex
