import Spillway.Codec
import Spillway.Disk
import Spillway.Text.Quoted

/-!
# Errors

The causes of failure, in the storage of one partition and in the engine and the maps above it,
and the message of each.
-/

namespace Spillway

/-- What is wrong with a table file, or with the entries given to one. -/
inductive Corruption where
  | emptyFlush
  | entryTooLong (length : Nat) (path : Path)
  | keysOutOfOrder (path : Path)
  | truncated (path : Path) (size : Nat)
  | badMagic (found : Bytes)
  | badVersion (found : Nat)
  | indexOutside (path : Path) (offset : Nat)
  | checksumMismatch (path : Path) (expected found : UInt32)
  | truncatedIndexEntry (path : Path)
  | truncatedIndexKey (path : Path)
  deriving DecidableEq

namespace Corruption

def message : Corruption → String
  | emptyFlush => "Cannot flush empty MemTable"
  | entryTooLong length path => s!"entry of {length} bytes does not fit an SSTable in {path.text}"
  | keysOutOfOrder path => s!"SSTable keys out of order in {path.text}"
  | truncated path size => s!"SSTable {path.text} is truncated ({size} bytes)"
  | badMagic found =>
    s!"Invalid SSTable magic: expected SPKV, got {Text.bracketed (found.map toString)}"
  | badVersion found => s!"Unsupported SSTable version: {found}"
  | indexOutside path offset => s!"SSTable {path.text} has index offset {offset} outside the file"
  | checksumMismatch path expected found =>
    s!"SSTable {path.text} data CRC mismatch: expected {Numeral.hex 8 expected.toNat}, " ++
      s!"got {Numeral.hex 8 found.toNat}"
  | truncatedIndexEntry path => s!"SSTable {path.text} has a truncated index entry"
  | truncatedIndexKey path => s!"SSTable {path.text} has a truncated index key"

end Corruption

/-- Why the storage of a partition fails. -/
inductive StorageError where
  | io (error : IoError)
  | corrupt (cause : Corruption)
  | keyNotFound
  deriving DecidableEq

/-- An action on the disk whose failure is a storage error. -/
def DiskM.storage {α : Type} (act : DiskM IoError α) : DiskM StorageError α :=
  EStateM.adaptExcept .io act

/-- The two things that an entry is made of. -/
inductive Part where
  | key
  | value
  deriving DecidableEq, Repr

namespace Part

def text : Part → String
  | key => "key"
  | value => "value"

end Part

/-- What a caller did wrong. -/
inductive Misuse where
  | emptyBytes (part : Part)
  | tooManyBytes (part : Part) (count limit : Nat)
  | emptyEncoding (part : Part)
  | badPartitionName (name : String)
  | noPartition (name : String)
  | engineClosed (root : Path)
  | mapOnClosedEngine (partition : String)
  | mapClosed
  | cannotSpill
  | noEngine
  deriving DecidableEq

namespace Misuse

def message : Misuse → String
  | emptyBytes part => s!"{part.text} bytes can not be empty"
  | tooManyBytes part count limit => s!"{part.text} of {count} bytes exceeds the {limit} byte limit"
  | emptyEncoding part => s!"{part.text} can not be empty once serialized"
  | badPartitionName name =>
    s!"invalid partition name {Text.quoted name}: use ASCII letters, digits, '-', '_' or '.'"
  | noPartition name => s!"partition {name} does not exist"
  | engineClosed root => s!"engine handle at {root.text} is closed"
  | mapOnClosedEngine partition => s!"cannot create map {partition} on a closed engine handle"
  | mapClosed => "map is closed"
  | cannotSpill => "memory-only map cannot spill"
  | noEngine => "engine does not exist"

end Misuse

/-- What an engine was doing when its storage failed. -/
inductive Task where
  | openEngine (root : Path)
  | createPartition (name : String)
  | dropPartition (name : String)
  | put (partition : String)
  | putBatch (partition : String)
  | read (partition : String)
  | delete (partition : String)
  | scan (partition : String)
  | flush (partition : String)
  deriving DecidableEq

namespace Task

def message : Task → String
  | openEngine root => s!"failed to open engine at {root.text}"
  | createPartition name => s!"failed to create partition {name}"
  | dropPartition name => s!"failed to drop partition {name}"
  | put partition => s!"put into partition {partition} failed"
  | putBatch partition => s!"batch put into partition {partition} failed"
  | read partition => s!"get from partition {partition} failed"
  | delete partition => s!"delete from partition {partition} failed"
  | scan partition => s!"scan of partition {partition} failed"
  | flush partition => s!"flush of partition {partition} failed"

end Task

/-- Why an engine or a map fails. -/
inductive Error where
  | invalidArgument (cause : Misuse)
  | engine (task : Task) (cause : StorageError)
  | serialization (cause : CodecError)
  deriving DecidableEq

namespace StorageError

def message : StorageError → String
  | io _ => "IO error"
  | corrupt cause => "SSTable corruption detected: " ++ cause.message
  | keyNotFound => "Key not found"

end StorageError

namespace Error

def message : Error → String
  | invalidArgument cause => "Invalid argument: " ++ cause.message
  | engine task _ => "Engine error: " ++ task.message
  | serialization cause => "Serialization error: " ++ cause.message

end Error

end Spillway
