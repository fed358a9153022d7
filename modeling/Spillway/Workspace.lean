import Spillway.Engine

/-!
# Shared engines

A workspace is a disk with the engines on it. Engines are shared: each has a number of owners, and
is closed when the last of them releases it.
-/

namespace Spillway

abbrev EngineId := Nat

/-- An engine and the number of its owners. -/
structure SharedEngine where
  engine : Engine
  owners : Nat

structure Workspace where
  disk : Disk := {}
  /-- Engine `0`, `1`, ... -/
  engines : List SharedEngine := []
  /-- The directory for temporary files. -/
  tempDir : Path := "/tmp"

/-- Actions in a workspace. -/
abbrev WorkspaceM := EStateM Error Workspace

/-- Actions of a value that uses the engines of a workspace. -/
abbrev InWorkspace (σ : Type) := EStateM Error (σ × Workspace)

/-- An action on the workspace alone. -/
def inWorkspace {σ α : Type} (act : WorkspaceM α) : InWorkspace σ α :=
  zoom Prod.snd (fun w p => (p.1, w)) act

namespace Workspace

def engine? (w : Workspace) (id : EngineId) : Option Engine :=
  w.engines[id]?.map (·.engine)

/-- The workspace with another number of owners of an engine. -/
def modifyOwners (w : Workspace) (id : EngineId) (f : Nat → Nat) : Workspace :=
  { w with engines := w.engines.modify id fun shared => { shared with owners := f shared.owners } }

/-- The workspace with another state of an engine and of the disk. -/
def putEngine (w : Workspace) (id : EngineId) (engine : Engine) (disk : Disk) : Workspace where
  disk := disk
  engines := w.engines.modify id fun shared => { shared with engine }
  tempDir := w.tempDir

/-- An action of an engine. -/
def onEngine {α : Type} (id : EngineId) (act : EngineM α) : WorkspaceM α := do
  match (← get).engine? id with
  | none => throw (.invalidArgument .noEngine)
  | some engine =>
    zoom (fun w => (engine, w.disk)) (fun (engine, disk) w => w.putEngine id engine disk) act

/-- Opens an engine and makes the caller its owner. -/
def addEngine (opened : DiskM Error Engine) : WorkspaceM EngineId := do
  let engine ← zoom Workspace.disk (fun disk w => { w with disk }) opened
  modifyGet fun w => (w.engines.length, { w with engines := w.engines ++ [⟨engine, 1⟩] })

def openEngine (root : Path) (config : Config) : WorkspaceM EngineId :=
  addEngine (Engine.openAt root config)

def openDisposableEngine (config : Config) (token : String) : WorkspaceM EngineId := do
  addEngine (Engine.openDisposable config (← get).tempDir token)

/-- Adds an owner. -/
def retain (id : EngineId) : WorkspaceM Unit :=
  modify (·.modifyOwners id (· + 1))

/-- Takes an owner away; the last one closes the engine. -/
def release (id : EngineId) : WorkspaceM Unit := do
  modify (·.modifyOwners id (· - 1))
  if ((← get).engines[id]?.map (·.owners)) = some 0 then
    onEngine id Engine.close

end Workspace

end Spillway
