/-!
# Numerals

Numbers in a base, filled up with zeros to a least width, and decimal numerals read back.
-/

namespace Spillway.Numeral

/-- The digits of `n` in `base`, with zeros in front up to `width` characters. -/
def padded (base width n : Nat) : String :=
  let digits := Nat.toDigits base n
  String.ofList (List.replicate (width - digits.length) '0' ++ digits)

/-- Lower-case hexadecimal with at least `width` digits. -/
def hex (width n : Nat) : String := padded 16 width n

/-- The digit that a character stands for. -/
def digit? (c : Char) : Option Nat :=
  if '0' ≤ c ∧ c ≤ '9' then some (c.toNat - '0'.toNat) else none

/-- The number spelt by a run of decimal digits read after `n`. -/
def digitsFrom? (n : Nat) : List Char → Option Nat
  | [] => some n
  | c :: rest =>
    match digit? c with
    | some d => digitsFrom? (10 * n + d) rest
    | none => none

/-- The number below `bound` that a text spells: one plus sign at most, then at least one decimal
digit and nothing else. -/
def unsigned? (bound : Nat) (text : List Char) : Option Nat :=
  let digits := match text with
    | '+' :: rest => rest
    | _ => text
  match digits with
  | [] => none
  | _ => (digitsFrom? 0 digits).filter (· < bound)

end Spillway.Numeral
