import Spillway.Dedup

/-!
# The line counter as a program

What the arguments name is copied to a disk in memory, and the counter runs there. The directory
for spilled data is all that a run leaves behind, so it is made for real afterwards.
-/

namespace Spillway.Dedup

/-- The disk after an action, whether it failed or not. -/
def diskAfter (act : DiskM IoError Unit) (d : Disk) : Disk :=
  match act d with
  | .ok _ d => d
  | .error _ d => d

/-- The paths that lead to a path, from the top down, and the path itself. -/
def pathsTo (path : Path) : List String :=
  let parts := path.parts
  let texts := (List.range parts.length).map fun n => String.intercalate "/" (parts.take (n + 1))
  texts.filter (· ≠ "")

/-- Copies the file or the directory at a path, if there is one; a directory without its content. -/
def copyPath (d : Disk) (path : String) : IO Disk := do
  try
    let bytes ← IO.FS.readBinFile path
    return diskAfter (Disk.save path bytes.toList) d
  catch _ =>
    try
      let _ ← IO.FS.realPath path
      return diskAfter (Disk.createDirectory path) d
    catch _ => return d

/-- The files and directories that matter to a run. -/
def pathsOf (request : Option Request) (baseDir : Option String) : List Path :=
  match request with
  | some (.count options) => options.input.toList ++ (options.config baseDir).baseDir.toList
  | _ => []

/-- Whether a run reads the standard input. -/
def readsStdin (request : Option Request) : Bool :=
  match request with
  | some (.count options) => options.input.isNone
  | _ => false

/-- Runs the counter and gives the exit code. -/
def start (arguments : List String) : IO UInt32 := do
  let request := request? arguments
  let baseDir ← IO.getEnv Config.baseDirVariable
  let tempDir := (← IO.getEnv "TMPDIR").getD "/tmp"
  let paths := pathsOf request baseDir
  let mut disk : Disk := {}
  for path in paths.flatMap pathsTo do
    disk ← copyPath disk path
  let input ← if readsStdin request then (← IO.getStdin).readBinToEnd else pure .empty
  match run arguments baseDir "run" input.toList { disk, tempDir : Workspace } with
  | .error _ _ => return 1
  | .ok report after =>
    for path in paths do
      if after.disk.isDirectory path && !disk.isDirectory path then
        IO.FS.createDirAll path.text
    let stdout ← IO.getStdout
    stdout.write ⟨report.output.toArray⟩
    stdout.flush
    return report.code.toUInt32

end Spillway.Dedup

/-- Counts the distinct lines of a text. -/
def main (arguments : List String) : IO UInt32 :=
  Spillway.Dedup.start arguments
