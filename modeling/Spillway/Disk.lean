import Spillway.Bytes
import Spillway.Action
import Spillway.Disk.Path

/-!
# The disk

A tree of directories and files. A name leads to a directory or to a file, and a file is known by
a number of its own: taking its name away, or giving the name to another file, leaves it readable
for whoever has it open, while writing to a name that leads to a file changes that file itself.

Names are looked up part by part; each part but the last has to be a directory.

A disk may fail for reasons of its own. Each action that opens or changes something asks for the
next of the faults that are to come; a disk without any does all that its tree allows.
-/

namespace Spillway

/-- A place in the tree: the names from the top down. -/
abbrev Location := List String

abbrev FileId := Nat

/-- What a name leads to. -/
inductive Node where
  | directory
  | file (id : FileId)
  deriving DecidableEq, Repr

/-- Why the disk refuses. -/
inductive IoError where
  | notFound
  | alreadyExists
  | notADirectory
  | isADirectory
  | directoryNotEmpty
  | unexpectedEof
  | invalidInput
  | storageFull
  | fileTooLarge
  deriving DecidableEq, Repr

/-- The name that an error is known by. -/
def IoError.name : IoError → String
  | notFound => "NotFound"
  | alreadyExists => "AlreadyExists"
  | notADirectory => "NotADirectory"
  | isADirectory => "IsADirectory"
  | directoryNotEmpty => "DirectoryNotEmpty"
  | unexpectedEof => "UnexpectedEof"
  | invalidInput => "InvalidInput"
  | storageFull => "StorageFull"
  | fileTooLarge => "FileTooLarge"

structure Disk where
  /-- The names below the top. -/
  nodes : List (Location × Node) := []
  /-- The bytes of file `0`, `1`, ... -/
  contents : List Bytes := []
  /-- What the coming actions run into, one after the other: an error, or nothing. After the last
  of these nothing goes wrong. -/
  faults : List (Option IoError) := []

/-- Actions on a disk. -/
abbrev DiskM (ε : Type) := EStateM ε Disk

/-- Actions on a value with files on a disk. -/
abbrev OnDisk (σ ε : Type) := EStateM ε (σ × Disk)

/-- An action on the disk alone. -/
def onDisk {σ ε α : Type} (act : DiskM ε α) : OnDisk σ ε α :=
  zoom Prod.snd (fun d p => (p.1, d)) act

namespace Disk

/-! ## Looking up -/

/-- The node at a place; the top is a directory. -/
def node? (d : Disk) (place : Location) : Option Node :=
  if place = [] then some .directory else d.nodes.lookup place

/-- The place that the parts lead to from `here`. It may hold nothing; all before it has to be
directories. -/
def walk (d : Disk) (here : Location) : List String → Except IoError Location
  | [] => .ok here
  | part :: rest =>
    match d.node? here with
    | none => .error .notFound
    | some (.file _) => .error .notADirectory
    | some .directory =>
      if part = "" ∨ part = "." then d.walk here rest
      else if part = ".." then d.walk here.dropLast rest
      else d.walk (here ++ [part]) rest

def locate (d : Disk) (path : Path) : Except IoError Location :=
  d.walk [] path.parts

/-- What a path leads to. -/
def find (d : Disk) (path : Path) : Except IoError (Location × Node) :=
  match d.locate path with
  | .error e => .error e
  | .ok place =>
    match d.node? place with
    | none => .error .notFound
    | some node => .ok (place, node)

def isDirectory (d : Disk) (path : Path) : Bool :=
  match d.find path with
  | .ok (_, .directory) => true
  | _ => false

def isFile (d : Disk) (path : Path) : Bool :=
  match d.find path with
  | .ok (_, .file _) => true
  | _ => false

def content (d : Disk) (id : FileId) : Bytes := d.contents[id]?.getD []

/-- The names in the directory at a place. -/
def childrenAt (d : Disk) (place : Location) : List (String × Node) :=
  d.nodes.filterMap fun (at_, node) =>
    match at_.getLast? with
    | some name => if at_.dropLast = place then some (name, node) else none
    | none => none

/-- The names in a directory. -/
def children (d : Disk) (path : Path) : Except IoError (List (String × Node)) :=
  match d.find path with
  | .error e => .error e
  | .ok (_, .file _) => .error .notADirectory
  | .ok (place, .directory) => .ok (d.childrenAt place)

/-! ## Changing -/

/-- Takes the next fault, and fails if it is an error. -/
def attempt : DiskM IoError Unit := do
  let d ← get
  match d.faults with
  | [] => return
  | none :: rest => set { d with faults := rest }
  | some e :: rest =>
    set { d with faults := rest }
    throw e

/-- The disk with a node at a place. -/
def put (d : Disk) (place : Location) (node : Node) : Disk :=
  { d with nodes := (place, node) :: d.nodes.filter fun (at_, _) => at_ ≠ place }

/-- The disk without the names at and below a place. -/
def dropTree (d : Disk) (place : Location) : Disk :=
  { d with nodes := d.nodes.filter fun (at_, _) => !place.isPrefixOf at_ }

/-- The disk with the bytes of a file replaced. -/
def setContent (d : Disk) (id : FileId) (bytes : Bytes) : Disk :=
  { d with contents := d.contents.set id bytes }

/-- Makes the directories on the way from `here` that are missing. -/
def makeDirectories (here : Location) : List String → DiskM IoError Unit
  | [] => do
    match (← get).node? here with
    | some .directory => return
    | some (.file _) => throw .alreadyExists
    | none => modify (·.put here .directory)
  | part :: rest => do
    match (← get).node? here with
    | some .directory => pure ()
    | some (.file _) => throw .notADirectory
    | none => modify (·.put here .directory)
    if part = "" ∨ part = "." then makeDirectories here rest
    else if part = ".." then makeDirectories here.dropLast rest
    else makeDirectories (here ++ [part]) rest

/-- Makes a directory and all above it; one that is there already is left as it is. -/
def createDirectory (path : Path) : DiskM IoError Unit := do
  attempt
  makeDirectories [] path.parts

/-- Takes a directory away with all that is in it. -/
def removeTree (path : Path) : DiskM IoError Unit := do
  attempt
  match (← get).find path with
  | .error e => throw e
  | .ok (_, .file _) => throw .notADirectory
  | .ok (place, .directory) => modify (·.dropTree place)

/-- Takes the name of a file away. -/
def removeFile (path : Path) : DiskM IoError Unit := do
  attempt
  match (← get).find path with
  | .error e => throw e
  | .ok (_, .directory) => throw .isADirectory
  | .ok (place, .file _) => modify (·.dropTree place)

/-- An empty file at a path: a new one, or the one that is there with its bytes taken away. -/
def createFile (path : Path) : DiskM IoError FileId := do
  attempt
  let d ← get
  match d.locate path with
  | .error e => throw e
  | .ok place =>
    match d.node? place with
    | some .directory => throw .isADirectory
    | some (.file id) =>
      set (d.setContent id [])
      return id
    | none =>
      let id := d.contents.length
      set ({ d with contents := d.contents ++ [[]] }.put place (.file id))
      return id

/-- The size up to which files grow: places in a file are signed words of 64 bits. -/
def maxFileBytes : Nat := 0x7FFFFFFFFFFFFFFF

/-- Gives a file its bytes; when that fails it keeps those it has. -/
def writeFile (id : FileId) (bytes : Bytes) : DiskM IoError Unit := do
  attempt
  if maxFileBytes < bytes.length then throw .fileTooLarge
  modify (·.setContent id bytes)

/-- Puts bytes into the file at a path; the directories above it and the file are made when they
are missing. -/
def save (path : Path) (bytes : Bytes) : DiskM IoError Unit := do
  createDirectory (String.intercalate "/" path.parts.dropLast : String)
  let id ← createFile path
  writeFile id bytes

/-! ## Open files -/

/-- An open name: reading from a directory fails, opening it does not. -/
abbrev Handle := Node

def openFile (path : Path) : DiskM IoError Handle := do
  attempt
  match (← get).find path with
  | .error e => throw e
  | .ok (_, node) => return node

/-- The bytes of an open file. -/
def bytesOf (d : Disk) : Handle → Except IoError Bytes
  | .directory => .error .isADirectory
  | .file id => .ok (d.content id)

/-! ## Listing -/

/-- One line for each name below a place: its path after `shown`, and a slash for a directory or
the size for a file. -/
def listing (d : Disk) (place : Location) (shown : String) : List String :=
  let below := d.nodes.filter fun (at_, _) => place.isPrefixOf at_ && at_ != place
  let lines := below.map fun (at_, node) =>
    let path := shown ++ "/" ++ String.intercalate "/" (at_.drop place.length)
    match node with
    | .directory => path ++ "/"
    | .file id => s!"{path} {(d.content id).length}"
  lines.mergeSort (· ≤ ·)

end Disk

end Spillway
