import BuildGraph.Op.Basic
import BuildGraph.Path
import BuildGraph.Text.Cut
import BuildGraph.Text.Quoted

/-!
# Valid operations

An operation can be built with any paths and indices. `Op.validate` finds the first reason why an engine could
not carry it out: an index without an input, a path that is empty, relative or holds the null character, a
process without a program, an environment entry without a key, a mount target used twice, an exec whose first
mount is not the root, a source without a scheme, a merge of nothing.
-/

namespace BuildGraph

inductive InvalidOp
  | relativePath (path : String)
  | emptyPath
  | nulByte (path : String)
  | emptyArgs
  | malformedEnv (entry : String)
  | duplicateMount (dest : String)
  | missingRootMount
  | malformedIdentifier (identifier : String)
  | inputOutOfBounds (index count : Nat)
  | emptyMerge
deriving DecidableEq, Repr

def InvalidOp.message : InvalidOp → String
  | relativePath path => "path " ++ Text.quote path ++ " must be absolute"
  | emptyPath => "path must not be empty"
  | nulByte path => "path " ++ Text.quote path ++ " contains a NUL byte"
  | emptyArgs => "exec has no arguments"
  | malformedEnv entry => "malformed env entry " ++ Text.quote entry
  | duplicateMount dest => "mount target " ++ dest ++ " is used more than once"
  | missingRootMount => "exec must mount its root filesystem at / first"
  | malformedIdentifier identifier => "source identifier " ++ Text.quote identifier ++ " has no scheme"
  | inputOutOfBounds index count =>
    "input index " ++ toString index ++ " out of bounds (have " ++ toString count ++ ")"
  | emptyMerge => "merge needs at least one input"

namespace Op

def checkIndex (count index : Nat) : Except InvalidOp Unit :=
  if index < count then .ok () else .error (.inputOutOfBounds index count)

/-- An input is the empty filesystem or one of `count`. -/
def checkInput (count : Nat) : Option Nat → Except InvalidOp Unit
  | none => .ok ()
  | some index => checkIndex count index

/-- A path is absolute and can be handed to an operating system. -/
def checkPath (path : String) : Except InvalidOp Unit :=
  if path = "" then .error .emptyPath
  else if '\x00' ∈ path.toList then .error (.nulByte path)
  else if Path.isAbsolute path.toList then .ok ()
  else .error (.relativePath path)

def checkSelector : Option String → Except InvalidOp Unit
  | none => .ok ()
  | some path => checkPath path

/-- An environment entry has a key in front of its first `=`. -/
def checkEntry (entry : String) : Except InvalidOp Unit :=
  match Text.cutFirst? '=' entry.toList with
  | some (_ :: _, _) => .ok ()
  | _ => .error (.malformedEnv entry)

def hasScheme : List Char → Bool
  | [] => false
  | ':' :: '/' :: '/' :: _ => true
  | _ :: cs => hasScheme cs

/-- A process has a program, whose name is not empty. -/
def checkArgs : List String → Except InvalidOp Unit
  | [] | "" :: _ => .error .emptyArgs
  | _ :: _ => .ok ()

/-- Mounts have inputs, paths, and targets that differ from each other and from `seen` in normal form. -/
def checkMounts (count : Nat) : List String → List MountPoint → Except InvalidOp Unit
  | _, [] => .ok ()
  | seen, m :: ms => do
    checkInput count m.input
    checkPath m.dest
    checkSelector m.selector
    let target := Path.normalize m.dest
    if target ∈ seen then throw (.duplicateMount m.dest)
    checkMounts count (target :: seen) ms

/-- The first mount is the root filesystem. -/
def checkRoot : List MountPoint → Except InvalidOp Unit
  | [] => .error .missingRootMount
  | m :: _ => if m.dest = "/" then .ok () else .error .missingRootMount

def validateExec (count : Nat) (e : Exec) : Except InvalidOp Unit := do
  checkArgs e.process.args
  e.process.env.forM checkEntry
  checkPath e.process.cwd
  checkRoot e.mounts
  checkMounts count [] e.mounts

def validateCopy (count : Nat) (c : Copy) : Except InvalidOp Unit := do
  checkInput count c.destInput
  checkInput count c.srcInput
  checkPath c.src
  checkPath c.dest

def validateMerge (count : Nat) (m : Merge) : Except InvalidOp Unit := do
  if m.inputs = [] then throw .emptyMerge
  m.inputs.forM (checkIndex count)

def validate (count : Nat) : Op → Except InvalidOp Unit
  | source s => if hasScheme s.identifier.toList then .ok () else .error (.malformedIdentifier s.identifier)
  | exec e => validateExec count e
  | copy c => validateCopy count c
  | merge m => validateMerge count m

end Op

end BuildGraph
