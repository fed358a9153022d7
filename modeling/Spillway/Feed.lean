import Spillway.KeyMap

/-!
# Feeds of entries

A feed draws entries one by one from sources of some type, until they end or fail. `Feed.toList`
gives all that a source holds.
-/

namespace Spillway

/-- How entries are drawn from sources of type `σ`. -/
structure Feed (ε σ : Type) where
  /-- The next entry or failure, and the source after it; `none` at the end. -/
  pull : σ → Option (Except ε Entry × σ)
  /-- A bound on what is still to come. -/
  remaining : σ → Nat
  remaining_pull : ∀ {s item s'}, pull s = some (item, s') → remaining s' < remaining s

/-- Lists give their items in order. -/
def Feed.list (ε : Type) : Feed ε (List (Except ε Entry)) where
  pull
    | [] => none
    | item :: rest => some (item, rest)
  remaining := List.length
  remaining_pull := by
    intro s item s' h
    cases s <;> simp_all

namespace Feed

variable {ε σ : Type} (feed : Feed ε σ)

/-- All items of a source, those after a failure included. -/
def toList (source : σ) : List (Except ε Entry) :=
  match _h : feed.pull source with
  | none => []
  | some (item, rest) => item :: toList rest
termination_by feed.remaining source
decreasing_by exact feed.remaining_pull _h

end Feed

end Spillway
