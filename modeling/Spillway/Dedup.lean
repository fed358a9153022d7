import Spillway.Dedup.Arguments
import Spillway.Factory

/-!
# Counting distinct lines

The distinct lines of an input are collected in a set of rows with one text, which spills when a
budget is given. The output is their number, or the lines themselves in the order in which they
appeared first. It does not depend on the budget.
-/

namespace Spillway.Dedup

/-- What a run leaves: the exit code and what was printed. -/
structure Report where
  code : Nat
  output : Bytes
  deriving DecidableEq

def programName : String := "spillkv-dedup"

def versionText : String := programName ++ " 0.1.0\n"

def helpText : String :=
  String.intercalate "\n" [
    "Count distinct input lines with a memory-bounded set",
    "",
    "Usage: " ++ programName ++ " [OPTIONS]",
    "",
    "Options:",
    "  -i, --input <INPUT>                Input file (reads stdin when omitted)",
    "  -b, --budget-bytes <BUDGET_BYTES>  Memory budget in bytes before the set spills to disk",
    "      --base-dir <BASE_DIR>          Parent directory for the spill engine " ++
      "(default: $SPILLKV_BASE_DIR or temp)",
    "  -p, --partition <PARTITION>        Partition identifier for the spilled set " ++
      "[default: dedup]",
    "      --print-unique                 Print each line the first time it is seen",
    "  -h, --help                         Print help",
    "  -V, --version                      Print version",
    ""]

/-- A line without the carriage return before its end. -/
def chomp (line : Bytes) : Bytes :=
  if line.getLast? = some 13 then line.dropLast else line

/-- The lines of an input. Each ends in a line feed, which may follow a carriage return; bytes
after the last line feed are a line too. -/
def linesFrom (line : Bytes) : Bytes → List Bytes
  | [] => if line = [] then [] else [line.reverse]
  | b :: rest =>
    if b = 10 then chomp line.reverse :: linesFrom [] rest else linesFrom (b :: line) rest

def lines (input : Bytes) : List Bytes := linesFrom [] input

/-- Rows of one text. -/
def lineSchema : Schema := ⟨[⟨1, "line", .string, true⟩]⟩

/-- Adds a line to a set; tells whether it is new. -/
def addLine (line : String) : SetM Row Bool := do
  let key : Row := ⟨[.string line]⟩
  if ← SpillSet.contains key then return false
  SpillSet.add key
  return true

/-- The lines that are not among the ones before, after those `found` already (in reverse), and
whether all lines could be read. -/
def collect (found : List String) : List Bytes → SetM Row (List String × Bool)
  | [] => return (found.reverse, true)
  | line :: rest => do
    match Utf8.decode line with
    | .error _ => return (found.reverse, false)
    | .ok text =>
      match ← outcome (addLine text) with
      | .error _ => return (found.reverse, false)
      | .ok isNew => collect (if isNew then text :: found else found) rest

/-- The configuration of a run. -/
def Options.config (options : Options) (baseDir : Option String) : Config :=
  let config := Config.ofEnvironment baseDir
  { config with
    baseDir := options.baseDir <|> config.baseDir
    maxInMemoryBytes := options.budget
    mapIdentifier := options.budget.map fun _ => options.partition }

/-- The bytes to count lines of; `none` when they can not be read. -/
def Options.source (options : Options) (stdin : Bytes) (d : Disk) : Option Bytes :=
  match options.input with
  | none => some stdin
  | some path =>
    match d.find path with
    | .ok (_, .file id) => some (d.content id)
    | _ => none

/-- What is printed for the distinct lines. Lines are printed as they are found, their number only
at the end. -/
def Options.output (options : Options) (found : List String) (complete : Bool) : Bytes :=
  if options.printUnique then found.flatMap fun line => Utf8.encode line ++ [10]
  else if complete then Utf8.encode (toString found.length) ++ [10]
  else []

/-- Counts with a set, which is given up at the end. -/
def countWith (options : Options) (stdin : Bytes) (seen : SpillSet Row) : WorkspaceM Report := do
  match options.source stdin (← get).disk with
  | none =>
    seen.discard
    return ⟨1, []⟩
  | some input =>
    let (found, complete, seen) ←
      zoom (fun w => (seen, w)) (fun (_, w) _ => w) do
        let (found, complete) ← collect [] (lines input)
        let (seen, _) ← get
        return (found, complete, seen)
    seen.discard
    return ⟨if complete then 0 else 1, options.output found complete⟩

/-- Counts the distinct lines. The token names the root of the engine, if one is needed. -/
def count (options : Options) (baseDir : Option String) (token : String) (stdin : Bytes) :
    WorkspaceM Report := do
  let factory := Factory.ofConfig (options.config baseDir)
  let (seen, factory) ←
    zoom (fun w => (factory, w)) (fun (_, w) _ => w) do
      let seen ← outcome (Factory.newSet token lineSchema)
      let (factory, _) ← get
      return (seen, factory)
  let report ←
    match seen with
    | .ok seen => countWith options stdin seen
    | .error _ => pure ⟨1, []⟩
  factory.discard
  return report

/-- Does what the arguments ask for. -/
def run (arguments : List String) (baseDir : Option String) (token : String) (stdin : Bytes) :
    WorkspaceM Report :=
  match request? arguments with
  | none => return ⟨2, []⟩
  | some .help => return ⟨0, Utf8.encode helpText⟩
  | some .version => return ⟨0, Utf8.encode versionText⟩
  | some (.count options) => count options baseDir token stdin

end Spillway.Dedup
