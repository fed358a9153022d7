import Spillway.Disk.Path
import Spillway.Text.Quoted

/-!
# Configuration

The settings that engines, maps and factories share. Settings made with `Config.of` have no zero
where a zero would turn off flushing or sampling.
-/

namespace Spillway

structure Config where
  /-- Directory under which disposable engines are rooted; `none` is that of the system. -/
  baseDir : Option Path := none
  /-- Size of a partition's memtable from which it is written to a table. -/
  writeBufferBytes : Nat := 4 * 1024 * 1024
  /-- Number of tables of a partition beyond which some are merged. -/
  maxTables : Nat := 8
  /-- How many entries of a table share one index entry. -/
  indexInterval : Nat := 16
  /-- Budget of maps and sets; `none` keeps them in memory. -/
  maxInMemoryBytes : Option Nat := none
  /-- What the partitions of maps and sets are called; `none` keeps them in memory. -/
  mapIdentifier : Option String := none
  deriving DecidableEq

namespace Config

/-- One setting of a configuration. -/
inductive Setting where
  | baseDir (path : Path)
  | writeBufferBytes (size : Nat)
  | maxTables (count : Nat)
  | indexInterval (interval : Nat)
  | maxInMemoryBytes (bytes : Nat)
  | mapIdentifier (identifier : String)

def apply (config : Config) : Setting → Config
  | .baseDir path => { config with baseDir := some path }
  | .writeBufferBytes size => { config with writeBufferBytes := size }
  | .maxTables count => { config with maxTables := count }
  | .indexInterval interval => { config with indexInterval := interval }
  | .maxInMemoryBytes bytes => { config with maxInMemoryBytes := some bytes }
  | .mapIdentifier identifier => { config with mapIdentifier := some identifier }

/-- The configuration with sizes of at least one. -/
def atLeastOne (config : Config) : Config :=
  { config with
    writeBufferBytes := max config.writeBufferBytes 1
    maxTables := max config.maxTables 1
    indexInterval := max config.indexInterval 1 }

/-- The default configuration with settings made in order. -/
def of (settings : List Setting) : Config :=
  (settings.foldl apply {}).atLeastOne

/-- Name of the environment variable with the directory for disposable engines. -/
def baseDirVariable : String := "SPILLKV_BASE_DIR"

/-- The default configuration with the directory that the environment names, if it does. -/
def ofEnvironment (baseDir : Option String) : Config :=
  match baseDir with
  | some dir => if dir = "" then {} else { baseDir := some dir }
  | none => {}

/-- Whether maps of this configuration may spill. -/
def isSpillable (config : Config) : Bool :=
  config.maxInMemoryBytes.isSome && config.mapIdentifier.isSome

def text (config : Config) : String :=
  Text.record "SpillConfig"
    [("base_dir", Text.optional (config.baseDir.map fun path => Text.quote .path path.text)),
     ("write_buffer_bytes", toString config.writeBufferBytes),
     ("max_sstables", toString config.maxTables),
     ("index_interval", toString config.indexInterval),
     ("max_in_memory_bytes", Text.optional (config.maxInMemoryBytes.map toString)),
     ("map_identifier", Text.optional (config.mapIdentifier.map Text.quoted))]

end Config

end Spillway
