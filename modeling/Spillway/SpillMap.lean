import Spillway.Workspace

/-!
# Maps that spill

A map from typed keys to typed values, whose keys are the same when their bytes are. Entries are
held in memory; when more bytes of values were written there than the budget allows, all of them
move to a partition of an engine, the spill stage. A key is in one stage only: one that was moved
is overwritten and deleted where it is.
-/

namespace Spillway

/-- Entries in memory. -/
structure MemoryStage where
  entries : KeyMap Bytes := []
  /-- Bytes of the values written since the map was made or last spilled, those overwritten or
  deleted since included. -/
  tally : Nat := 0

namespace MemoryStage

def insert (m : MemoryStage) (key value : Bytes) : MemoryStage where
  entries := m.entries.insert key value
  tally := m.tally + value.length

def erase (m : MemoryStage) (key : Bytes) : MemoryStage :=
  { m with entries := m.entries.erase key }

end MemoryStage

/-- The partition that a map spills to. -/
structure SpillStage where
  engine : EngineId
  partition : String
  /-- How many bytes of values may be written to memory between two spills. -/
  budget : Nat
  /-- The partition is made by the first spill. -/
  created : Bool := false
  spillCount : Nat := 0

structure SpillMap (κ ν : Type) where
  keys : Codec κ
  values : Codec ν
  memory : MemoryStage := {}
  /-- `none` for maps that stay in memory. -/
  spillStage : Option SpillStage := none
  closed : Bool := false

/-- Entries of a map: those in memory and then those in the spill stage, each in the order of their
keys. -/
structure Contents (α : Type) where
  memory : List (Except Error α)
  spilled : List (Except Error α)

variable {κ ν : Type}

/-- Actions of a map. -/
abbrev MapM (κ ν : Type) := InWorkspace (SpillMap κ ν)

namespace SpillMap

/-! ## Making maps -/

/-- A map that never spills. -/
def memoryOnly (keys : Codec κ) (values : Codec ν) : SpillMap κ ν :=
  { keys, values }

/-- A map that spills to a partition of an open engine, of which it becomes an owner. -/
def spillable (budget : Nat) (partition : String) (engine : EngineId) (keys : Codec κ)
    (values : Codec ν) : WorkspaceM (SpillMap κ ν) := do
  ofExcept (Engine.checkName partition)
  if ((← get).engine? engine).elim true (·.closed) then
    throw (.invalidArgument (.mapOnClosedEngine partition))
  Workspace.retain engine
  return { keys, values, spillStage := some { engine, partition, budget } }

/-- The same map with its keys and values seen as other types. -/
def withCodecs {κ' ν' : Type} (m : SpillMap κ ν) (keys : Codec κ') (values : Codec ν') :
    SpillMap κ' ν' where
  keys := keys
  values := values
  memory := m.memory
  spillStage := m.spillStage
  closed := m.closed

/-! ## Looking at maps -/

/-- The spill stage once its partition was made; before it holds nothing. -/
def live? (m : SpillMap κ ν) : Option SpillStage := m.spillStage.filter (·.created)

def isSpillable (m : SpillMap κ ν) : Bool := m.spillStage.isSome

def hasSpilled (m : SpillMap κ ν) : Bool := m.live?.isSome

def spillCount (m : SpillMap κ ν) : Nat := (m.spillStage.map (·.spillCount)).getD 0

def text (m : SpillMap κ ν) : String :=
  Text.record "SpillableMap"
    [("memory_len", toString m.memory.entries.length),
     ("memory_tally", toString m.memory.tally),
     ("partition_id", Text.optional (m.spillStage.map fun stage => Text.quoted stage.partition)),
     ("has_spilled", toString m.hasSpilled),
     ("closed", toString m.closed)]

/-! ## Building blocks -/

/-- Replaces a map by what a function makes of it. -/
def update (f : SpillMap κ ν → SpillMap κ ν) : MapM κ ν Unit := modify fun (m, w) => (f m, w)

def updateStage (f : SpillStage → SpillStage) : MapM κ ν Unit :=
  update fun m => { m with spillStage := m.spillStage.map f }

def ensureOpen : MapM κ ν Unit := do
  let (m, _) ← get
  if m.closed then throw (.invalidArgument .mapClosed)

/-- The outcome of a codec. -/
def coded {α : Type} (x : Except CodecError α) : MapM κ ν α :=
  ofExcept (x.mapError .serialization)

def keyBytes (key : κ) : MapM κ ν Bytes := do
  let (m, _) ← get
  coded (m.keys.encode key)

/-- An action on the partition of a spill stage. -/
def onStage {α : Type} (stage : SpillStage) (act : String → EngineM α) : MapM κ ν α :=
  inWorkspace (Workspace.onEngine stage.engine (act stage.partition))

/-- The bytes that the spill stage has for a key. -/
def spilledBytes (key : Bytes) : MapM κ ν (Option Bytes) := do
  let (m, _) ← get
  match m.live? with
  | none => return none
  | some stage => onStage stage (Engine.find · key)

/-- The same, for a key that may be in memory. -/
def movedBytes (key : Bytes) : MapM κ ν (Option Bytes) := do
  let (m, _) ← get
  if m.memory.entries.contains key then return none else spilledBytes key

def checkEncoding (part : Part) (bytes : Bytes) : Except Error Unit :=
  if bytes = [] then .error (.invalidArgument (.emptyEncoding part)) else .ok ()

/-- The bytes of a key and a value, which are not empty. -/
def encodeEntry (keys : Codec κ) (values : Codec ν) (key : κ) (value : ν) :
    Except Error (Bytes × Bytes) := do
  let key ← (keys.encode key).mapError .serialization
  let value ← (values.encode value).mapError .serialization
  checkEncoding .key key
  checkEncoding .value value
  return (key, value)

/-- Empties memory and writes entries to the spill stage. -/
def moveEntries (stage : SpillStage) (entries : KeyMap Bytes) : MapM κ ν Unit := do
  update fun m => { m with memory := {} }
  let _ ← onStage stage (Engine.putBatch · entries)
  updateStage fun stage => { stage with spillCount := stage.spillCount + 1 }

/-- Moves all entries from memory to the spill stage. Its partition is made by the first move. -/
def spillMemory : MapM κ ν Unit := do
  let (m, _) ← get
  match m.spillStage with
  | none => return
  | some stage =>
    unless stage.created do
      let _ ← onStage stage Engine.createPartition
      updateStage fun stage => { stage with created := true }
    moveEntries stage m.memory.entries

/-! ## Operations -/

/-- Puts the bytes of a value at those of a key: where the key has been moved to, and in memory
otherwise, from where everything is moved when the budget is exceeded. -/
def putBytes (key value : Bytes) : MapM κ ν Unit := do
  let (m, _) ← get
  match ← movedBytes key, m.live? with
  | some _, some stage => onStage stage (Engine.put · key value)
  | _, _ =>
    update fun m => { m with memory := m.memory.insert key value }
    let (m, _) ← get
    if m.spillStage.any fun stage => stage.budget < m.memory.tally then spillMemory

/-- Puts a value at a key. -/
def put (key : κ) (value : ν) : MapM κ ν Unit := do
  ensureOpen
  let (m, _) ← get
  let (key, value) ← ofExcept (encodeEntry m.keys m.values key value)
  putBytes key value

/-- The bytes of the value of a key, in memory or in the spill stage. -/
def valueBytes (key : Bytes) : MapM κ ν (Option Bytes) := do
  let (m, _) ← get
  if key = [] then return none
  match m.memory.entries.find? key with
  | some value => return some value
  | none => spilledBytes key

/-- The value of a key. -/
def find (key : κ) : MapM κ ν (Option ν) := do
  ensureOpen
  let (m, _) ← get
  match ← valueBytes (← keyBytes key) with
  | none => return none
  | some value => return some (← coded (m.values.decode value))

def contains (key : κ) : MapM κ ν Bool := return (← find key).isSome

/-- Deletes the bytes of a key where they are; without them nothing happens. -/
def eraseBytes (key : Bytes) : MapM κ ν Unit := do
  let (m, _) ← get
  if m.memory.entries.contains key then
    update fun m => { m with memory := m.memory.erase key }
  else
    match ← spilledBytes key, m.live? with
    | some _, some stage => onStage stage (Engine.delete · key)
    | _, _ => return

/-- Deletes a key. -/
def erase (key : κ) : MapM κ ν Unit := do
  ensureOpen
  let key ← keyBytes key
  unless key = [] do eraseBytes key

/-- Moves all entries to the spill stage now. -/
def spill : MapM κ ν Unit := do
  ensureOpen
  let (m, _) ← get
  if m.isSpillable then spillMemory else throw (.invalidArgument .cannotSpill)

/-- Whether a key is in memory. -/
def inMemory (key : κ) : MapM κ ν Bool := do
  let key ← keyBytes key
  let (m, _) ← get
  return m.memory.entries.contains key

/-- Whether a key is in the spill stage. -/
def inSpill (key : κ) : MapM κ ν Bool := do
  ensureOpen
  let key ← keyBytes key
  if key = [] then return false
  return (← spilledBytes key).isSome

/-- An entry out of its bytes. -/
def decodeEntry (m : SpillMap κ ν) (entry : Bytes × Bytes) : Except Error (κ × ν) :=
  Except.mapError .serialization do
    let key ← m.keys.decode entry.1
    let value ← m.values.decode entry.2
    return (key, value)

/-- All entries. -/
def contents : MapM κ ν (Contents (κ × ν)) := do
  ensureOpen
  let (m, _) ← get
  let memory := m.memory.entries.map m.decodeEntry
  match m.live? with
  | none => return { memory, spilled := [] }
  | some stage =>
    let scan ← onStage stage Engine.scan
    let (_, w) ← get
    return { memory, spilled := (scan.toList w.disk).map (·.bind m.decodeEntry) }

/-- Forgets all entries and drops the partition. A second time it does nothing. -/
def close : MapM κ ν Unit := do
  let (m, _) ← get
  unless m.closed do
    update fun m => { m with closed := true, memory := {} }
    match m.live? with
    | none => return
    | some stage =>
      updateStage fun stage => { stage with created := false }
      let _ ← outcome (onStage (κ := κ) (ν := ν) stage Engine.dropPartition)

/-- Closes a map that is not used any more, and gives its engine up. -/
def discard (m : SpillMap κ ν) : WorkspaceM Unit := do
  let _ ← outcome (zoom (fun w => (m, w)) (fun (_, w) _ => w) close)
  match m.spillStage with
  | none => return
  | some stage => Workspace.release stage.engine

end SpillMap

end Spillway
