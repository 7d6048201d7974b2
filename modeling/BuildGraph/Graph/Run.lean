import BuildGraph.Graph.Basic
import BuildGraph.Shell

/-!
# Running a process

A run starts a process over a base state, which it sees as its root filesystem, and over any number of mounts.
It starts in the directory of the base state and with its environment, where the run itself does not say
otherwise; a `PATH` is given to a process that would have none.

The root has output 0. The mounts that can be written have the outputs 1, 2 and so on; a read-only mount has
none. `RunResult.mount` and `RunResult.holder` find the filesystem behind a path after the run.
-/

namespace BuildGraph

structure Mount where
  target : String
  source : State
  selector : Option String
  readonly : Bool
deriving DecidableEq

/-- What is run, on top of a base state. -/
structure RunOptions where
  args : List String
  mounts : List Mount
  env : StringMap
  cwd : Option String
deriving DecidableEq

namespace RunOptions

def ofArgs (args : List String) : RunOptions := ⟨args, [], .empty, none⟩

def ofCommand (command : String) : Except GraphError RunOptions :=
  match Shell.words? command with
  | some args => .ok (ofArgs args)
  | none => .error (.unparsableCommand command)

end RunOptions

def defaultPath : String := "/usr/local/sbin:/usr/local/bin:/usr/sbin:/usr/bin:/sbin:/bin"

def pathVariable : String := "PATH"

/-- The environment of a process: that of the base, changed by the run, and never without a `PATH`. -/
def effectiveEnv (base changes : StringMap) : StringMap :=
  let env := base.insertAll changes.entries
  match env.get? pathVariable with
  | some _ => env
  | none => env.insert pathVariable defaultPath

def envEntries (env : StringMap) : List String := env.entries.map fun e => e.1 ++ "=" ++ e.2

/-- The mounts of an exec behind its root, where `next` is the number of the next output, and the inputs. -/
def bindMounts : List Output → Nat → List Mount → List MountPoint × List Output
  | inputs, _, [] => ([], inputs)
  | inputs, next, m :: ms =>
    let input := slot inputs m.source
    let rest := bindMounts input.2 (if m.readonly then next else next + 1) ms
    (⟨input.1, m.selector.map (Path.join "/"), m.target, if m.readonly then none else some next, m.readonly⟩ ::
      rest.1, rest.2)

def runVertex (base : State) (options : RunOptions) : Vertex :=
  let root := slot [] base
  let mounts := bindMounts root.2 1 options.mounts
  let process : Process :=
    { args := options.args
      env := envEntries (effectiveEnv base.env options.env)
      cwd := match options.cwd with
        | some cwd => Path.join base.dir cwd
        | none => base.dir }
  ⟨.exec ⟨process, ⟨root.1, none, "/", some 0, false⟩ :: mounts.1⟩, mounts.2⟩

structure MountResult where
  target : String
  output : Option Nat
deriving DecidableEq, Repr

/-- The mounts of a run and their outputs, the root left out. -/
def mountResults : Nat → List Mount → List MountResult
  | _, [] => []
  | next, m :: ms =>
    ⟨m.target, if m.readonly then none else some next⟩ :: mountResults (if m.readonly then next else next + 1) ms

/-- A mount that holds a path: how long its target is in bytes, its output, and the path below the target. -/
structure Holder where
  depth : Nat
  index : Nat
  rest : String
deriving DecidableEq, Repr

/-- The mount as a holder of a path, if it can be written and the path lies in it. -/
def MountResult.holder? (path : String) (m : MountResult) : Option Holder := do
  let index ← m.output
  let rest ← Path.stripBase? path m.target
  return ⟨(Path.normalize m.target).utf8ByteSize, index, rest⟩

/-- The deepest of several holders, the last one of equally deep ones. -/
def deepest? (holders : List Holder) : Option Holder :=
  holders.foldl (fun best h =>
    match best with
    | none => some h
    | some b => if b.depth ≤ h.depth then some h else some b) none

structure RunResult where
  graph : GraphId
  vertex : Nat
  root : State
  mounts : List MountResult
deriving DecidableEq

namespace RunResult

def output (r : RunResult) (index : Nat) : State := .ofOutput ⟨r.graph, r.vertex, index⟩

/-- The filesystem that the first mount at a path has after the run. -/
def mount (r : RunResult) (target : String) : Except GraphError State :=
  match r.mounts.find? fun m => Path.normalize m.target == Path.normalize target with
  | none => .error (.noSuchMount target)
  | some m =>
    match m.output with
    | some index => .ok (r.output index)
    | none => .error (.readonlyMount target)

/-- The filesystem that holds a path after the run, and the path in it. -/
def holder (r : RunResult) (path : String) : State × String :=
  match deepest? (r.mounts.filterMap (MountResult.holder? path)) with
  | some h => (r.output h.index, h.rest)
  | none => (r.root, Path.normalize path)

end RunResult

def hasProgram : List String → Bool
  | [] | "" :: _ => false
  | _ :: _ => true

namespace Build

def exec (base : State) (options : RunOptions) : Build GraphError RunResult := do
  if !hasProgram options.args then ofExcept (.error .emptyArgs)
  check base
  options.mounts.forM fun m => check m.source
  let vertex ← intern (runVertex base options)
  let root ← output vertex 0
  return ⟨root.graph, vertex, ⟨some root, base.setting⟩, mountResults 1 options.mounts⟩

end Build

end BuildGraph
