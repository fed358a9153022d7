import Spillway.SpillMap

/-!
# Sets that spill

A set is a map that holds one byte for each member, so a member costs one byte of the budget.
-/

namespace Spillway

structure SpillSet (κ : Type) where
  map : SpillMap κ UInt8

/-- Actions of a set. -/
abbrev SetM (κ : Type) := InWorkspace (SpillSet κ)

namespace SpillSet

variable {κ : Type}

/-- What a set holds for a member. -/
def mark : UInt8 := 0

def marks : Codec UInt8 := .ofFormat Wire.Format.uint8

/-- A set that never spills. -/
def memoryOnly (keys : Codec κ) : SpillSet κ := ⟨.memoryOnly keys marks⟩

/-- A set that spills to a partition of an open engine. -/
def spillable (budget : Nat) (partition : String) (engine : EngineId) (keys : Codec κ) :
    WorkspaceM (SpillSet κ) := do
  return ⟨← SpillMap.spillable budget partition engine keys marks⟩

/-- An action of the map behind a set. -/
def onMap {α : Type} (act : MapM κ UInt8 α) : SetM κ α :=
  zoom (fun (s, w) => (s.map, w)) (fun (map, w) _ => ({ map }, w)) act

/-- Adds a member; adding it again counts against the budget again. -/
def add (key : κ) : SetM κ Unit := onMap (SpillMap.put key mark)

def contains (key : κ) : SetM κ Bool := onMap (SpillMap.contains key)

def remove (key : κ) : SetM κ Unit := onMap (SpillMap.erase key)

def inMemory (key : κ) : SetM κ Bool := onMap (SpillMap.inMemory key)

def inSpill (key : κ) : SetM κ Bool := onMap (SpillMap.inSpill key)

/-- All members. -/
def contents : SetM κ (Contents κ) := do
  let entries ← onMap SpillMap.contents
  return {
    memory := entries.memory.map (·.map Prod.fst)
    spilled := entries.spilled.map (·.map Prod.fst) }

def close : SetM κ Unit := onMap SpillMap.close

/-- Closes a set that is not used any more, and gives its engine up. -/
def discard (s : SpillSet κ) : WorkspaceM Unit := s.map.discard

def text (s : SpillSet κ) : String := Text.record "SpillableSet" [("map", s.map.text)]

end SpillSet

end Spillway
