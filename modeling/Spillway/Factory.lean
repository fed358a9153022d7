import Spillway.SpillSet

/-!
# Factories

A factory makes maps and sets with row keys from one configuration. Those that spill share one
engine, which is given to the factory or opened as a disposable one for the first of them; each
gets a partition of its own, numbered in the order of making.
-/

namespace Spillway

structure Factory where
  config : Config
  engine : Option EngineId := none
  nextInstance : Nat := 0

/-- Actions of a factory. -/
abbrev FactoryM := InWorkspace Factory

namespace Factory

variable {ν : Type}

/-- A factory that opens an engine of its own when it needs one. -/
def ofConfig (config : Config) : Factory := { config }

/-- A factory that spills to an engine, of which it becomes an owner. -/
def withEngine (engine : EngineId) (config : Config) : WorkspaceM Factory := do
  Workspace.retain engine
  return { config, engine := some engine }

def isSpillable (f : Factory) : Bool := f.config.isSpillable

def text (f : Factory) (w : Workspace) : String :=
  let root := (f.engine.bind w.engine?).map fun engine => Text.quote .path engine.root.text
  Text.record "StructLikeFactory" [("config", f.config.text), ("engine", Text.optional root)]

/-- The engine of the factory, opened when there is none yet. The token names its root. -/
def getEngine (token : String) : FactoryM EngineId := do
  let (f, _) ← get
  match f.engine with
  | some id => return id
  | none =>
    let id ← inWorkspace (Workspace.openDisposableEngine f.config token)
    modify fun (f, w) => ({ f with engine := some id }, w)
    return id

/-- The budget and a partition that was not used before, unless maps stay in memory. -/
def nextTarget : FactoryM (Option (Nat × String)) := do
  let (f, _) ← get
  match f.config.maxInMemoryBytes, f.config.mapIdentifier with
  | some budget, some identifier =>
    modify fun (f, w) => ({ f with nextInstance := f.nextInstance + 1 }, w)
    return some (budget, s!"{identifier}-{f.nextInstance}")
  | _, _ => return none

/-- A map with a budget and a partition; it stays in memory without one of them. -/
def newMapWith (token : String) (schema : Schema) (values : Codec ν) (budget : Option Nat)
    (partition : Option String) : FactoryM (SpillMap Row ν) := do
  match budget, partition with
  | some budget, some partition =>
    let engine ← getEngine token
    inWorkspace (SpillMap.spillable budget partition engine (.ofSchema schema) values)
  | _, _ => return .memoryOnly (.ofSchema schema) values

/-- A map as the configuration has it. -/
def newMap (token : String) (schema : Schema) (values : Codec ν) : FactoryM (SpillMap Row ν) := do
  match ← nextTarget with
  | some (budget, partition) => newMapWith token schema values (some budget) (some partition)
  | none => newMapWith token schema values none none

/-- A set as the configuration has it. -/
def newSet (token : String) (schema : Schema) : FactoryM (SpillSet Row) := do
  match ← nextTarget with
  | some (budget, partition) =>
    let engine ← getEngine token
    inWorkspace (SpillSet.spillable budget partition engine (.ofSchema schema))
  | none => return .memoryOnly (.ofSchema schema)

/-- Gives up the engine of a factory that is not used any more. -/
def discard (f : Factory) : WorkspaceM Unit := do
  match f.engine with
  | some id => Workspace.release id
  | none => return

end Factory

end Spillway
