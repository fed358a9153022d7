import Spillway.Decimal.Shortest

/-!
# IEEE 754 numbers by their bits

Single and double precision numbers are kept as their bits. `order` changes the bits so that they
compare as unsigned integers in the total order of the numbers, and `ofOrder` changes them back.
-/

namespace Spillway.Ieee

/-- The widths of the exponent and of the fraction. -/
structure Layout where
  exponentBits : Nat
  fractionBits : Nat

def single : Layout := ⟨8, 23⟩
def double : Layout := ⟨11, 52⟩

namespace Layout

/-- The number of bits: one for the sign, and those of the exponent and of the fraction. -/
abbrev width (l : Layout) : Nat := 1 + l.exponentBits + l.fractionBits

/-- How many different fractions there are. -/
def fractions (l : Layout) : Nat := Nat.pow 2 l.fractionBits

/-- How many different exponents there are. -/
def exponents (l : Layout) : Nat := Nat.pow 2 l.exponentBits

end Layout

/-- What bits stand for: no number, an infinity, or `mantissa * 2 ^ exponent` with a sign. -/
inductive Value where
  | nan
  | infinite (negative : Bool)
  | finite (negative : Bool) (mantissa : Nat) (exponent : Int)
  deriving DecidableEq, Repr

variable (l : Layout)

def fraction (bits : Nat) : Nat := bits % l.fractions
def exponent (bits : Nat) : Nat := bits / l.fractions % l.exponents
def isNegative (bits : Nat) : Bool := bits / l.fractions / l.exponents % 2 = 1

/-- The value of bits: the largest exponent is kept for infinities and for no number, and the
smallest one has no hidden leading bit. -/
def value (bits : Nat) : Value :=
  let bias : Int := l.exponents / 2 - 1 + l.fractionBits
  if exponent l bits = l.exponents - 1 then
    if fraction l bits = 0 then .infinite (isNegative l bits) else .nan
  else if exponent l bits = 0 then
    .finite (isNegative l bits) (fraction l bits) (1 - bias)
  else
    .finite (isNegative l bits) (l.fractions + fraction l bits) (exponent l bits - bias)

def isNan (bits : Nat) : Bool := value l bits = .nan

/-- Numeric equality: a value that is no number differs from all, and the two zeros are equal. -/
def numericEq (a b : Nat) : Bool :=
  match value l a, value l b with
  | .nan, _ => false
  | _, .nan => false
  | .finite _ 0 _, .finite _ 0 _ => true
  | x, y => x = y

/-- The reals that round to a positive number. They reach half-way to its neighbours, and the
neighbour below a power of two is only half as far away unless the exponent is the smallest. -/
def interval (mantissa : Nat) (exponent : Int) (closeBelow : Bool) : Decimal.Interval where
  low := 4 * mantissa - if closeBelow then 1 else 2
  value := 4 * mantissa
  high := 4 * mantissa + 2
  exponent := exponent - 2
  closed := mantissa % 2 = 0

/-- The shortest text that reads back as the number. -/
def text (style : Decimal.Style) (bits : Nat) : String :=
  match value l bits with
  | .nan => "NaN"
  | .infinite negative => if negative then "-inf" else "inf"
  | .finite negative mantissa power =>
    let closeBelow : Bool := mantissa = l.fractions ∧ 1 < exponent l bits
    let size :=
      if mantissa = 0 then "0.0"
      else (interval mantissa power closeBelow).shortest.text style
    if negative then "-" ++ size else size

/-- Bits that compare as unsigned integers like the numbers: a negative number has all its bits
inverted, any other only its sign. -/
def order {w : Nat} (bits : BitVec w) : BitVec w :=
  if bits.msb then ~~~ bits else bits ||| BitVec.intMin w

/-- The bits of the number with these order bits. -/
def ofOrder {w : Nat} (bits : BitVec w) : BitVec w :=
  if bits.msb then bits &&& ~~~ BitVec.intMin w else ~~~ bits

end Spillway.Ieee
