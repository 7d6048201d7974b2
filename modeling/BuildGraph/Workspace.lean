import BuildGraph.Digest
import BuildGraph.Files
import BuildGraph.Text.Blank
import BuildGraph.Text.Lines

/-!
# Workspaces

A workspace is the directory of the project that is built. A build names it only, so the little that is asked of
it here is whether the files that the build depends on are there. A file of the workspace is given by a path
that neither begins at the root nor goes up.
-/

namespace BuildGraph

inductive WorkspaceError
  | notFound (path : String) (reason : FileError)
  | notADirectory (path : String)
  | outsideWorkspace (path : String)
  | missingManifest (path : String)
  | read (path : String) (reason : FileError)
deriving DecidableEq, Repr

def WorkspaceError.message : WorkspaceError → String
  | notFound path reason => "workspace " ++ path ++ " not found: " ++ reason.message
  | notADirectory path => "workspace " ++ path ++ " is not a directory"
  | outsideWorkspace path => path ++ " is outside the workspace"
  | missingManifest path => "manifest " ++ path ++ " not found in workspace"
  | read path reason => "failed to read " ++ path ++ ": " ++ reason.message

/-- A directory by its canonical path. -/
structure Workspace where
  root : String
deriving DecidableEq, Repr

/-- What a list of dependencies holds. An entry is a line that is neither blank nor a comment. -/
structure ManifestInfo where
  path : String
  lines : Nat
  entries : Nat
  hash : String
deriving DecidableEq, Repr

/-- A line that is neither blank nor a comment. -/
def isEntry (line : List Char) : Bool :=
  match Text.trim line with
  | [] => false
  | c :: _ => c != '#'

/-- What the content of a file says as a list of dependencies. -/
def ManifestInfo.ofContent (path : String) (content : List UInt8) : ManifestInfo :=
  let lines := Text.lines (Text.ofBytes content)
  ⟨path, lines.length, (lines.filter isEntry).length, contentHash content⟩

namespace Workspace

variable {m : Type → Type} [Monad m]

def openAt (files : Files m) (path : String) : m (Except WorkspaceError Workspace) := do
  match ← files.canonical path with
  | .error reason => return .error (.notFound path reason)
  | .ok root =>
    if ← files.isDirectory root then return .ok ⟨root⟩ else return .error (.notADirectory root)

/-- A path stays in the directory that it is followed from. -/
def isInner (path : String) : Bool :=
  path != "" && path.toList.head? != some '/' && !(path.toList.splitOn '/').contains ['.', '.']

def file (w : Workspace) (relative : String) : Except WorkspaceError String :=
  if isInner relative then .ok (hostJoin w.root relative) else .error (.outsideWorkspace relative)

def manifest (files : Files m) (w : Workspace) (relative : String) : m (Except WorkspaceError ManifestInfo) := do
  match w.file relative with
  | .error e => return .error e
  | .ok path =>
    if ← files.isFile path then
      match ← files.read path with
      | .error reason => return .error (.read path reason)
      | .ok content => return .ok (.ofContent path content)
    else return .error (.missingManifest relative)

end Workspace

end BuildGraph
