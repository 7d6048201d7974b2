import BuildGraph.Digest

/-!
# Access to files

What this library asks of a file system: where a path leads, whether there is a directory or a file, and the
content of a file. A `Files` answers in a monad of its own, so the same program runs on a machine's files and on
a tree that is a value (`BuildGraph.FileTree`).
-/

namespace BuildGraph

/-- Why a file cannot be had. -/
inductive FileError
  | notFound
  | notDirectory
  | isDirectory
  | nameTooLong
  | tooManyLinks
  | nulInPath
  | notText
  | other (message : String)
deriving DecidableEq, Repr

def FileError.message : FileError → String
  | notFound => "No such file or directory (os error 2)"
  | notDirectory => "Not a directory (os error 20)"
  | isDirectory => "Is a directory (os error 21)"
  | nameTooLong => "File name too long (os error 36)"
  | tooManyLinks => "Too many levels of symbolic links (os error 40)"
  | nulInPath => "file name contained an unexpected NUL byte"
  | notText => "stream did not contain valid UTF-8"
  | other message => message

/-- A file system. -/
structure Files (m : Type → Type) where
  /-- The path without links, `.` and `..` that leads to the same place. -/
  canonical : String → m (Except FileError String)
  isDirectory : String → m Bool
  isFile : String → m Bool
  read : String → m (Except FileError (List UInt8))

/-- The content of a file as text. -/
def Files.readText {m : Type → Type} [Monad m] (files : Files m) (path : String) : m (Except FileError String) := do
  match ← files.read path with
  | .error e => return .error e
  | .ok bytes =>
    match String.fromUTF8? ⟨bytes.toArray⟩ with
    | some text => return .ok text
    | none => return .error .notText

/-- A file whose content cannot be hashed. -/
structure FileHashError where
  path : String
  reason : FileError
deriving DecidableEq, Repr

def FileHashError.message (e : FileHashError) : String :=
  "failed to read file " ++ e.path ++ ": " ++ e.reason.message

/-- The hash of a file's content. -/
def Files.hash {m : Type → Type} [Monad m] (files : Files m) (path : String) :
    m (Except FileHashError String) := do
  match ← files.read path with
  | .error reason => return .error ⟨path, reason⟩
  | .ok bytes => return .ok (contentHash bytes)

/-- A path below a directory. An absolute path stays what it is. -/
def hostJoin (dir path : String) : String :=
  if path.toList.head? = some '/' then path
  else if dir = "" ∨ dir.toList.getLast? = some '/' then dir ++ path
  else dir ++ "/" ++ path

end BuildGraph
