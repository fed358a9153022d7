import Spillway.Partition

/-!
# The engine

An engine owns a directory and the partitions in it. What is found in the directory when the
engine is opened is deleted, and closing the engine deletes the directory. A disposable engine
deletes it also when its last partition is dropped, and makes it again for the next one.

Every operation checks its arguments first, then that the engine is open, then that the partition
exists; only then it writes.
-/

namespace Spillway

structure Engine where
  root : Path
  disposable : Bool
  config : Config
  /-- The open partitions. -/
  partitions : List Partition := []
  /-- Partitions that were dropped, as they were then. -/
  retired : List Partition := []
  nextSerial : Nat := 0
  closed : Bool := false
  /-- Bytes of all values written. -/
  bytesWritten : Nat := 0

/-- Actions of an engine. -/
abbrev EngineM := OnDisk Engine Error

/-- A cursor over a partition, in the order of the keys. Later writes do not change what it
gives. -/
structure Scan where
  partition : String
  merge : Merge Source

namespace Scan

/-- What a scan makes of an item of its merge, which hides deletions. -/
def item (partition : String) : Except StorageError Entry → Except Error (Bytes × Bytes)
  | .ok (key, value) => .ok (key, value.getD [])
  | .error e => .error (.engine (.scan partition) e)

/-- The next entry or failure and the scan after it; `none` at the end and after a failure. -/
def next (d : Disk) (s : Scan) : Option (Except Error (Bytes × Bytes)) × Scan :=
  let (found, merge) := s.merge.next (Source.feed d)
  (found.map (item s.partition), { s with merge })

/-- The results of calling for the next entry `n` times. -/
def nextMany (d : Disk) (s : Scan) : Nat → List (Option (Except Error (Bytes × Bytes))) × Scan
  | 0 => ([], s)
  | n + 1 =>
    let (found, s) := s.next d
    let (rest, s) := s.nextMany d n
    (found :: rest, s)

/-- All that is still to come. -/
def toList (d : Disk) (s : Scan) : List (Except Error (Bytes × Bytes)) :=
  (s.merge.toList (Source.feed d)).map (item s.partition)

end Scan

namespace Engine

/-! ## Names and places -/

/-- Letters, digits, `-`, `_` and `.` may stand in the name of a partition. -/
def isNameChar (c : Char) : Bool :=
  ('a' ≤ c && c ≤ 'z') || ('A' ≤ c && c ≤ 'Z') || ('0' ≤ c && c ≤ '9') ||
    c = '-' || c = '_' || c = '.'

/-- Whether a name can name a directory of its own: up to 255 characters that are allowed, at least
one, and the first no point. -/
def isPartitionName (name : String) : Bool :=
  let chars := name.toList
  chars ≠ [] && chars.length ≤ 255 && chars.head? ≠ some '.' && chars.all isNameChar

def checkName (name : String) : Except Error Unit :=
  if isPartitionName name then .ok ()
  else .error (.invalidArgument (.badPartitionName name))

def partitionsDir (root : Path) : Path := root.join "partitions"

def partitionDir (root : Path) (name : String) : Path := (partitionsDir root).join name

/-- The name of the root of a disposable engine. -/
def disposableName (token : String) : String := "spillkv-" ++ token

/-- The open partition of a name. -/
def partition? (e : Engine) (name : String) : Option Partition :=
  e.partitions.find? fun p => p.name = name

/-- A partition by its serial number, open or dropped. -/
def bySerial? (e : Engine) (serial : Nat) : Option Partition :=
  (e.partitions ++ e.retired).find? fun p => p.serial = serial

def hasPartition (e : Engine) (name : String) : Bool := (e.partition? name).isSome

/-- The names of the open partitions, in order. -/
def names (e : Engine) : List String :=
  (e.partitions.map (·.name)).mergeSort (· ≤ ·)

/-- The engine with an open partition replaced by another of its name. -/
def replace (e : Engine) (p : Partition) : Engine :=
  { e with partitions := e.partitions.map fun q => if q.name = p.name then p else q }

def text (e : Engine) : String :=
  Text.record "EngineHandle"
    [("root", Text.quote .path e.root.text),
     ("disposable", toString e.disposable),
     ("partitions", Text.bracketed (e.names.map Text.quoted)),
     ("closed", toString e.closed)]

/-! ## Building blocks -/

/-- Replaces an engine by what a function makes of it. -/
def update (f : Engine → Engine) : EngineM Unit := modify fun (e, d) => (f e, d)

/-- Deletes a directory; that it is missing is no failure. -/
def removeDirectory (path : Path) : DiskM StorageError Unit := do
  match ← outcome (Disk.removeTree path) with
  | .ok () => return
  | .error .notFound => return
  | .error e => throw (.io e)

/-- An action on the disk that is part of a task. -/
def during {α : Type} (task : Task) (act : DiskM StorageError α) : EngineM α :=
  EStateM.adaptExcept (.engine task) (onDisk act)

def ensureOpen : EngineM Unit := do
  let (e, _) ← get
  if e.closed then throw (.invalidArgument (.engineClosed e.root))

/-- The open partition of a name, on an open engine. -/
def lookup (name : String) : EngineM Partition := do
  ensureOpen
  let (e, _) ← get
  match e.partition? name with
  | some p => return p
  | none => throw (.invalidArgument (.noPartition name))

/-- An action of a partition that is part of a task. -/
def onPartition {α : Type} (task : Task) (name : String) (act : PartitionM α) : EngineM α := do
  let p ← lookup name
  EStateM.adaptExcept (.engine task)
    (zoom (fun (_, d) => (p, d)) (fun (p, d) (e, _) => (e.replace p, d)) act)

/-- Keys and values have at least one byte, and no more than a table entry can hold. -/
def checkBytes (part : Part) (bytes : Bytes) : Except Error Unit :=
  if bytes = [] then .error (.invalidArgument (.emptyBytes part))
  else if Table.maxEntryBytes < bytes.length then
    .error (.invalidArgument (.tooManyBytes part bytes.length Table.maxEntryBytes))
  else .ok ()

/-! ## Opening and closing -/

/-- Clears a root and makes the directory for partitions in it. -/
def prepareRoot (root : Path) : DiskM StorageError Unit := do
  removeDirectory root
  (Disk.createDirectory (partitionsDir root)).storage

/-- Opens an engine. When that fails, what it made is deleted. -/
def start (root : Path) (config : Config) (disposable : Bool) : DiskM Error Engine := do
  match ← outcome (prepareRoot root) with
  | .ok () => return { root, config, disposable }
  | .error e =>
    let _ ← outcome (removeDirectory root)
    throw (.engine (.openEngine root) e)

/-- Opens an engine at a root of its own. -/
def openAt (root : Path) (config : Config) : DiskM Error Engine := start root config false

/-- Opens a disposable engine under the directory of the configuration, or else under that for
temporary files. The token has to be one that was not used before. -/
def openDisposable (config : Config) (tempDir : Path) (token : String) : DiskM Error Engine :=
  start ((config.baseDir.getD tempDir).join (disposableName token)) config true

/-- Forgets all partitions and deletes the root. A second time it does nothing. -/
def close : EngineM Unit := do
  let (e, _) ← get
  unless e.closed do
    update fun e => { e with closed := true, partitions := [], retired := e.partitions ++ e.retired }
    let _ ← outcome (onDisk (σ := Engine) (removeDirectory e.root))

/-! ## Partitions -/

/-- Opens a partition, empty unless it is open already, and gives its serial number. -/
def createPartition (name : String) : EngineM Nat := do
  ensureOpen
  ofExcept (checkName name)
  let (e, _) ← get
  match e.partition? name with
  | some p => return p.serial
  | none =>
    let dir := partitionDir e.root name
    let p ← during (.createPartition name) do
      removeDirectory dir
      Partition.load e.nextSerial name dir e.config
    update fun e => { e with partitions := p :: e.partitions, nextSerial := e.nextSerial + 1 }
    return p.serial

/-- Drops a partition and deletes its files; without it, or on a closed engine, nothing happens.
A disposable engine without partitions deletes its root. -/
def dropPartition (name : String) : EngineM Unit := do
  let (e, _) ← get
  unless e.closed do
    match e.partition? name with
    | none => return
    | some p =>
      update fun e => { e with
        partitions := e.partitions.filter fun q => q.name ≠ name
        retired := p :: e.retired }
      let removed ← outcome (during (.dropPartition name) (removeDirectory p.dir))
      let (e, _) ← get
      if e.disposable && e.partitions.isEmpty then
        let _ ← outcome (onDisk (σ := Engine) (removeDirectory e.root))
      ofExcept removed

/-! ## Entries -/

def put (name : String) (key value : Bytes) : EngineM Unit := do
  ofExcept (checkBytes .key key)
  ofExcept (checkBytes .value value)
  onPartition (.put name) name (Partition.put key value)
  update fun e => { e with bytesWritten := e.bytesWritten + value.length }

/-- Checks all entries of a batch before the first is written. -/
def checkBatch : List (Bytes × Bytes) → Except Error Unit
  | [] => .ok ()
  | (key, value) :: rest => do
    checkBytes .key key
    checkBytes .value value
    checkBatch rest

/-- Writes many entries and gives their number. -/
def putBatch (name : String) (batch : List (Bytes × Bytes)) : EngineM Nat := do
  ofExcept (checkBatch batch)
  onPartition (.putBatch name) name (Partition.putBatch batch)
  let payload := batch.foldl (fun total (_, value) => total + value.length) 0
  update fun e => { e with bytesWritten := e.bytesWritten + payload }
  return batch.length

/-- The value of a key, or `none` when it has none. -/
def find (name : String) (key : Bytes) : EngineM (Option Bytes) := do
  ofExcept (checkBytes .key key)
  let p ← lookup name
  let (_, d) ← get
  match p.find d key with
  | .ok value => return value
  | .error e => throw (.engine (.read name) e)

def delete (name : String) (key : Bytes) : EngineM Unit := do
  ofExcept (checkBytes .key key)
  onPartition (.delete name) name (Partition.delete key)

def flush (name : String) : EngineM Unit :=
  onPartition (.flush name) name Partition.flush

/-- A cursor over all that the partition holds now. -/
def scan (name : String) : EngineM Scan := do
  let merge ← onPartition (.scan name) name Partition.scan
  return { partition := name, merge }

/-- All entries of a partition. -/
def entries (name : String) : EngineM (List (Except Error (Bytes × Bytes))) := do
  let s ← scan name
  let (_, d) ← get
  return s.toList d

end Engine

end Spillway
