import Spillway.Disk.Path
import Spillway.Text.Numeral

/-!
# Arguments of the line counter

Options have a long name after two dashes and some a short one after one dash. The value of an
option is the argument after it, or what follows an equals sign; after a short name it may also
follow at once. Options that take no value may share one dash. No option may be given twice, and
there are no other arguments.
-/

namespace Spillway.Dedup

structure Options where
  input : Option Path := none
  budget : Option Nat := none
  baseDir : Option Path := none
  partition : String := "dedup"
  printUnique : Bool := false
  deriving DecidableEq

/-- What the arguments ask for. -/
inductive Request where
  | count (options : Options)
  | help
  | version
  deriving DecidableEq

inductive Flag where
  | input
  | budget
  | baseDir
  | partition
  | printUnique
  | help
  | version
  deriving DecidableEq, Repr

namespace Flag

def long? : String → Option Flag
  | "input" => some input
  | "budget-bytes" => some budget
  | "base-dir" => some baseDir
  | "partition" => some partition
  | "print-unique" => some printUnique
  | "help" => some help
  | "version" => some version
  | _ => none

def short? : Char → Option Flag
  | 'i' => some input
  | 'b' => some budget
  | 'p' => some partition
  | 'h' => some help
  | 'V' => some version
  | _ => none

def takesValue : Flag → Bool
  | input | budget | baseDir | partition => true
  | printUnique | help | version => false

end Flag

/-- The arguments read so far: the options, those that were given, and one that waits for its
value. -/
structure Scanned where
  options : Options := {}
  given : List Flag := []
  waiting : Option Flag := none

/-- Why reading stops early: the arguments make no sense, or help or the version is asked for. -/
inductive Stop where
  | invalid
  | asked (request : Request)
  deriving DecidableEq

namespace Scanned

/-- Notes that an option was given, for the first time. -/
def give (s : Scanned) (flag : Flag) : Except Stop Scanned :=
  if flag ∈ s.given then .error .invalid
  else .ok { s with given := flag :: s.given, waiting := none }

/-- The value of an option. Paths are not empty and the budget is a number of 64 bits. -/
def withValue (s : Scanned) (flag : Flag) (value : List Char) : Except Stop Scanned := do
  let s ← s.give flag
  let path : Option Path := if value = [] then none else some (String.ofList value : Path)
  match flag, path with
  | .input, some path => return { s with options.input := some path }
  | .baseDir, some path => return { s with options.baseDir := some path }
  | .partition, _ => return { s with options.partition := String.ofList value }
  | .budget, _ =>
    match Numeral.unsigned? UInt64.size value with
    | some bytes => return { s with options.budget := some bytes }
    | none => throw .invalid
  | _, _ => throw .invalid

/-- An option without a value in the same argument. -/
def withoutValue (s : Scanned) (flag : Flag) : Except Stop Scanned :=
  if s.waiting.isSome then .error .invalid
  else
    match flag with
    | .help => .error (.asked .help)
    | .version => .error (.asked .version)
    | .printUnique => do
      let s ← s.give flag
      return { s with options.printUnique := true }
    | _ => .ok { s with waiting := some flag }

/-- An argument after two dashes. -/
def long (s : Scanned) (text : List Char) : Except Stop Scanned :=
  let name := text.takeWhile (· ≠ '=')
  match Flag.long? (String.ofList name), text.drop name.length with
  | none, _ => .error .invalid
  | some flag, [] => s.withoutValue flag
  | some flag, _ :: value =>
    if s.waiting.isNone && flag.takesValue then s.withValue flag value else .error .invalid

/-- An argument after one dash: options without a value, then at most one with a value. -/
def short (s : Scanned) : List Char → Except Stop Scanned
  | [] => .ok s
  | c :: rest =>
    match Flag.short? c with
    | none => .error .invalid
    | some flag =>
      if flag.takesValue then
        match rest with
        | [] => s.withoutValue flag
        | '=' :: value => if s.waiting.isNone then s.withValue flag value else .error .invalid
        | value => if s.waiting.isNone then s.withValue flag value else .error .invalid
      else do
        let s ← s.withoutValue flag
        s.short rest

/-- One argument, other than two dashes alone. -/
def argument (s : Scanned) (text : List Char) : Except Stop Scanned :=
  match text, s.waiting with
  | '-' :: '-' :: rest, _ => s.long rest
  | '-' :: c :: rest, _ => s.short (c :: rest)
  | value, some flag => s.withValue flag value
  | _, none => .error .invalid

/-- The end of the arguments: no option may still wait for its value. -/
def finish (s : Scanned) : Except Stop Scanned :=
  if s.waiting.isSome then .error .invalid else .ok s

/-- All arguments; after two dashes alone nothing may follow. -/
def arguments (s : Scanned) : List (List Char) → Except Stop Scanned
  | [] => s.finish
  | ['-', '-'] :: rest => if rest = [] then s.finish else .error .invalid
  | text :: rest => do
    let s ← s.argument text
    s.arguments rest

end Scanned

/-- What the arguments ask for, or `none` when they make no sense. -/
def request? (arguments : List String) : Option Request :=
  match ({} : Scanned).arguments (arguments.map String.toList) with
  | .ok s => some (.count s.options)
  | .error (.asked request) => some request
  | .error .invalid => none

end Spillway.Dedup
