/-!
# Shortest decimals

A binary floating-point number stands for all reals that round to it. `Interval.shortest` is the
decimal with the fewest digits among those, and of these the nearest to the number itself; of two
equally near ones the larger. It looks at the powers of ten from a large one downwards, and takes
the first whose multiples next to the number include one that rounds to it. All arithmetic is on
natural numbers.
-/

namespace Spillway

/-- The number `digits * 10 ^ exponent`. -/
structure Decimal where
  digits : Nat
  exponent : Int
  deriving DecidableEq, Repr

namespace Decimal

/-- `base` to the power of an exponent, or 1 when that is negative. -/
def power (base : Nat) (exponent : Int) : Nat := Nat.pow base exponent.toNat

/-- The number `value * 2 ^ exponent` and the reals between `low` and `high`, in the same unit,
that round to it; `closed` tells whether the two ends round to it as well. -/
structure Interval where
  low : Nat
  value : Nat
  high : Nat
  exponent : Int
  closed : Bool
  deriving DecidableEq, Repr

namespace Interval

/-- Whether `a` lies below `b`, or on it when ends count. -/
def before (closed : Bool) (a b : Nat) : Bool :=
  if closed then a ≤ b else a < b

/-- The multiple of `10 ^ k` next to the number that rounds to it, the nearer one of two. -/
def atPower? (i : Interval) (k : Int) : Option Decimal :=
  let unit := power 10 k * power 2 (-i.exponent)
  let scale := power 2 i.exponent * power 10 (-k)
  let below := i.value * scale / unit
  let belowFits := before i.closed (i.low * scale) (below * unit)
  let aboveFits := before i.closed ((below + 1) * unit) (i.high * scale)
  let belowNearer := 2 * (i.value * scale) < (2 * below + 1) * unit
  if belowFits && (belowNearer || !aboveFits) then some ⟨below, k⟩
  else if aboveFits then some ⟨below + 1, k⟩
  else none

/-- The first power of ten from `k` downwards, out of `count`, with a multiple that fits; the exact
value when there is none. -/
def firstFit (i : Interval) : Nat → Int → Decimal
  | 0, _ => ⟨i.value * power 2 i.exponent * power 5 (-i.exponent), min i.exponent 0⟩
  | count + 1, k =>
    match i.atPower? k with
    | some d => d
    | none => i.firstFit count (k - 1)

/-- A power of ten above every real of the interval. -/
def topPower (i : Interval) : Int :=
  let bits := (i.high.log2 : Int) + 1 + i.exponent
  if 0 ≤ bits then bits else bits / 4

def shortest (i : Interval) : Decimal :=
  i.firstFit (i.topPower - min i.exponent 0 + 1).toNat i.topPower

end Interval

/-- How numbers are written: with all their digits around a point when the point stands `least` to
`greatest` places after the first digit, and with an exponent otherwise. -/
structure Style where
  least : Int
  greatest : Int

/-- Text of a positive decimal; there is always a digit after a point that is not followed by an
exponent. -/
def text (style : Style) (d : Decimal) : String :=
  let digits := Nat.toDigits 10 d.digits
  let point := (digits.length : Int) + d.exponent
  if point < style.least ∨ style.greatest < point then
    let fraction := digits.drop 1
    String.ofList (digits.take 1 ++ if fraction = [] then [] else '.' :: fraction)
      ++ "e" ++ toString (point - 1)
  else if point ≤ 0 then
    "0." ++ String.ofList (List.replicate (-point).toNat '0' ++ digits)
  else
    let whole := digits.take point.toNat
    let fraction := digits.drop point.toNat
    String.ofList (whole ++ List.replicate (point.toNat - digits.length) '0' ++
      '.' :: if fraction = [] then ['0'] else fraction)

end Decimal

end Spillway
