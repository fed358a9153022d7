import Spillway.Bytes

/-!
# Maps keyed by bytes

A finite map from byte strings, kept as the list of its pairs in the order of their keys. An
`Entry` is what a partition knows of a key: the value last written, or that it was deleted.
-/

namespace Spillway

abbrev KeyMap (α : Type) := List (Bytes × α)

/-- A key with its value, or with `none` when it was deleted. -/
abbrev Entry := Bytes × Option Bytes

namespace KeyMap

variable {α : Type}

/-- Keys strictly increase. -/
def Sorted (m : KeyMap α) : Prop := m.Pairwise fun a b => a.1 < b.1

def find? (m : KeyMap α) (key : Bytes) : Option α := m.lookup key

/-- The map with a value put at a key, in place of the one that was there. -/
def insert (m : KeyMap α) (key : Bytes) (value : α) : KeyMap α :=
  match m with
  | [] => [(key, value)]
  | (k, v) :: rest =>
    if key < k then (key, value) :: (k, v) :: rest
    else if key = k then (key, value) :: rest
    else (k, v) :: insert rest key value

def erase (m : KeyMap α) (key : Bytes) : KeyMap α := m.filter fun pair => pair.1 ≠ key

def contains (m : KeyMap α) (key : Bytes) : Bool := (m.find? key).isSome

end KeyMap

end Spillway
