/-!
# Choosing tables to merge

Tables of similar size that lie next to each other in age form a run. `Tier.pick?` chooses the
longest run, of those the one with the fewest bytes, and of those the newest; when no two
neighbours are of similar size it chooses the two neighbours with the fewest bytes.
-/

namespace Spillway

/-- A stretch of neighbouring tables: the position of the first, their number and their size. -/
structure Tier where
  start : Nat
  count : Nat
  total : Nat
  deriving DecidableEq, Repr

namespace Tier

/-- Sizes up to this factor apart are similar. -/
def ratio : Nat := 2

/-- Extends a stretch of `count` tables with sizes between `low` and `high` over the tables that
follow, as long as all sizes stay similar. -/
def extend (low high count total : Nat) : List Nat → Nat × Nat
  | [] => (count, total)
  | size :: rest =>
    let low := min low size
    let high := max high size
    if low * ratio < high then (count, total) else extend low high (count + 1) (total + size) rest

/-- The longest stretch of similar sizes from each position. -/
def stretches (start : Nat) : List Nat → List Tier
  | [] => []
  | size :: rest =>
    let (count, total) := extend size size 1 size rest
    ⟨start, count, total⟩ :: stretches (start + 1) rest

/-- The two neighbours at each position. -/
def neighbours (start : Nat) : List Nat → List Tier
  | a :: b :: rest => ⟨start, 2, a + b⟩ :: neighbours (start + 1) (b :: rest)
  | _ => []

/-- More tables are better, and of as many tables fewer bytes. -/
def better (a b : Tier) : Bool :=
  b.count < a.count || (a.count = b.count && a.total < b.total)

/-- The best of some stretches, the first of equally good ones. -/
def best? : List Tier → Option Tier
  | [] => none
  | tier :: rest => some (rest.foldl (fun best tier => if tier.better best then tier else best) tier)

/-- The tables to merge, given all sizes from the newest to the oldest. -/
def pick? (sizes : List Nat) : Option Tier :=
  match best? (stretches 0 sizes) with
  | none => none
  | some tier => if 2 ≤ tier.count then some tier else best? (neighbours 0 sizes)

end Tier

end Spillway
