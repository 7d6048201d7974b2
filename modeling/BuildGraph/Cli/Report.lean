import BuildGraph.Export.Compile
import BuildGraph.Json.Value

/-!
# Reports

What a command leaves behind: bytes for the standard output, notes for a reader, and how it ended. A command
that fails says what it could not do and, below that, the causes one by one, the nearest first; a cause that lies
in a document is told apart from the others. It writes nothing to the standard output. `Ended.of` says what comes
out of the program in either case.
-/

namespace BuildGraph

/-- A reason for a failure. A reason of the first kind is about one place in a document. -/
inductive Cli.Cause
  | document (message : String)
  | other (message : String)
deriving DecidableEq, Repr

def Cli.Cause.message : Cli.Cause → String
  | document message | other message => message

open Cli (Cause)

/-- An error and what lies behind it. -/
def MarshalError.causes (e : MarshalError) : List Cause :=
  .other e.message ::
    match e with
    | invalidOp _ _ reason => [.other reason.message]
    | unknownVertex _ => []
    | root reason => [.other reason.message]

def DagError.causes (e : DagError) : List Cause :=
  .other e.message ::
    match e with
    | invalidOp _ reason => [.other reason.message]
    | _ => []

def PipelineError.causes (e : PipelineError) : List Cause :=
  match e with
  | read _ _ | invalidConfig _ => [.other e.message]
  | parse _ reason => [.document e.message, .document reason.message]
  | base reason | stage _ reason => [.other e.message, .other reason.message]

def ExportError.causes (e : ExportError) : List Cause :=
  match e with
  | graph _ | workspace _ => [.other e.message]
  | marshal reason => reason.causes
  | dag reason => .other e.message :: reason.causes
  | pipeline reason => reason.causes

def Definition.readCauses (e : Json.Error) : List Cause :=
  [.document (Definition.readFailure e), .document e.message]

def Overlap.line (o : Overlap) : String :=
  " WARN " ++ message ++ " earlier=" ++ o.earlier.stage ++ " later=" ++ o.later.stage ++
    " earlier_path=" ++ o.earlier.path ++ " later_path=" ++ o.later.path

namespace Cli

inductive Note
  | success (message : String)
  | warning (message : String)
deriving DecidableEq, Repr

def Note.text : Note → String
  | success message => "✓ " ++ message
  | warning message => "⚠ " ++ message

/-- What a command failed to do, and why. -/
structure Failure where
  context : String
  causes : List Cause
deriving DecidableEq, Repr

/-- A cause behind its number, if it has one; its further lines are indented as far as its first. -/
def causeLines (number : Option Nat) (cause : String) : List String :=
  let (first, further) := match number with
    | some n =>
      let digits := toString n
      (String.ofList (List.replicate (5 - digits.length) ' ') ++ digits ++ ": ", "       ")
    | none => ("    ", "    ")
  match cause.toList.splitOn '\n' with
  | [] => []
  | line :: lines => (first ++ String.ofList line) :: lines.map fun line => further ++ String.ofList line

def numberedCauses : Nat → List String → List String
  | _, [] => []
  | n, cause :: causes => causeLines (some n) cause ++ numberedCauses (n + 1) causes

/-- The lines about the causes of a failure. They have numbers only if there are several. -/
def causesLines : List String → List String
  | [] => []
  | [cause] => ["", "Caused by:"] ++ causeLines none cause
  | causes => ["", "Caused by:"] ++ numberedCauses 0 causes

/-- The lines about a failure, its causes worded in some way. -/
def Failure.linesBy (wording : Cause → String) (f : Failure) : List String :=
  ("Error: " ++ f.context) :: causesLines (f.causes.map wording)

def Failure.lines (f : Failure) : List String := f.linesBy Cause.message

/-- What a command leaves behind. -/
structure Report where
  stdout : List UInt8
  notes : List Note
  overlaps : List Overlap

def Report.ofBytes (bytes : List UInt8) : Report := ⟨bytes, [], []⟩

/-- How the program ends: the exit code, the bytes on the standard output, and the lines on the standard error that
are written before those bytes and behind them. -/
structure Ended where
  code : UInt32
  before : List String
  stdout : List UInt8
  behind : List String

def Ended.of : Except Failure Report → Ended
  | .error e => ⟨1, e.lines, [], []⟩
  | .ok r => ⟨0, r.overlaps.map Overlap.line, r.stdout, r.notes.map Note.text⟩

def linesBytes (lines : List String) : List UInt8 := lines.flatMap fun line => Json.utf8 line ++ [0x0a]

/-- A value laid out for readers, with a newline behind it. -/
def valueBytes (v : Json.Value) : List UInt8 := v.indented ++ [0x0a]

end Cli

end BuildGraph
