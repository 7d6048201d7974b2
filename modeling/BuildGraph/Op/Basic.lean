import BuildGraph.StringMap

/-!
# Operations

An `Op` says how a filesystem comes about. A source has no inputs. An exec runs a process over mounted
filesystems, a copy takes a path from one filesystem into another, a merge overlays several. An op does not hold
the filesystems it reads: it refers to them by their positions in the list of inputs that goes with it, and
`none` is the empty filesystem.

A source, a copy and a merge have one output. An exec has one for every mount that keeps what the process wrote.
-/

namespace BuildGraph

/-- A filesystem that comes from outside, named by a scheme and an address. -/
structure Source where
  identifier : String
  attrs : StringMap
deriving DecidableEq

/-- What a process is started with. The entries of its environment are `KEY=VALUE`, ordered by key. -/
structure Process where
  args : List String
  env : List String
  cwd : String
deriving DecidableEq, Repr

/-- A filesystem as a process sees it: at `dest`, the part below `selector` only if there is one. The number of
the output that keeps what the process wrote is `output`. -/
structure MountPoint where
  input : Option Nat
  selector : Option String
  dest : String
  output : Option Nat
  readonly : Bool
deriving DecidableEq, Repr

/-- A process and its mounts, the root filesystem first. -/
structure Exec where
  process : Process
  mounts : List MountPoint
deriving DecidableEq, Repr

/-- How a copy treats its source and its destination. -/
structure CopyFlags where
  allowWildcard : Bool
  createDestPath : Bool
  attemptUnpack : Bool
deriving DecidableEq, Repr

namespace CopyFlags

def plain : CopyFlags := ⟨false, false, false⟩

/-- A copy that takes a result out of a filesystem. -/
def extract : CopyFlags := ⟨true, true, true⟩

end CopyFlags

structure Copy where
  destInput : Option Nat
  srcInput : Option Nat
  src : String
  dest : String
  flags : CopyFlags
deriving DecidableEq, Repr

/-- An overlay of inputs; where they hold the same path, the later one counts. -/
structure Merge where
  inputs : List Nat
deriving DecidableEq, Repr

/-- How a filesystem comes about. -/
inductive Op
  | source (s : Source)
  | exec (e : Exec)
  | copy (c : Copy)
  | merge (m : Merge)
deriving DecidableEq

namespace Op

def kind : Op → String
  | source _ => "source"
  | exec _ => "exec"
  | copy _ => "copy"
  | merge _ => "merge"

/-- The number of filesystems that an operation brings about. -/
def outputCount : Op → Nat
  | exec e => (e.mounts.filter (·.output.isSome)).length
  | source _ | copy _ | merge _ => 1

/-- The mounts of an exec besides the root, as a reader sees them. -/
def describeMounts (mounts : List MountPoint) : List String :=
  (mounts.drop 1).map fun m => m.dest ++ if m.readonly then ":ro" else ""

def describe : Op → String
  | source s => s.identifier
  | exec e =>
    let command := " ".intercalate e.process.args
    match describeMounts e.mounts with
    | [] => command ++ " (cwd " ++ e.process.cwd ++ ")"
    | mounts => command ++ " (cwd " ++ e.process.cwd ++ ", mounts " ++ ", ".intercalate mounts ++ ")"
  | copy c => c.src ++ " -> " ++ c.dest
  | merge m => toString m.inputs.length ++ " inputs"

end Op

end BuildGraph
