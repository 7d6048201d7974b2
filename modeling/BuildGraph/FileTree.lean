import BuildGraph.Files

/-!
# File trees

A `FileTree` is a file system as a value: files, directories and symbolic links. A path is followed from the
root or from a working directory, segment by segment: an empty segment and `.` stay, `..` goes to the directory
around, a link is replaced by its target. Every segment but the first needs a directory to be followed from, a
closing slash included. At most forty links are followed.
-/

namespace BuildGraph

/-- What a name in a directory stands for. -/
inductive FileTree
  | file (content : List UInt8)
  | link (target : String)
  | directory (entries : List (String × FileTree))

namespace FileTree

/-- A directory without entries. -/
def empty : FileTree := .directory []

/-- The segments of a path. -/
def segments (path : String) : List String := (path.toList.splitOn '/').map String.ofList

/-- The entry of a directory. -/
def entry? (t : FileTree) (name : String) : Option FileTree :=
  match t with
  | directory entries => entries.lookup name
  | _ => none

/-- The node at the end of some names. -/
def at? (t : FileTree) : List String → Option FileTree
  | [] => some t
  | name :: names => (t.entry? name).bind fun t => t.at? names

/-- The number of links that are followed for one path. -/
def linkLimit : Nat := 40

/-- The number of bytes that a name may have. -/
def nameLimit : Nat := 255

/-- The directory that a path is followed from. -/
def start (dir : List String) (path : String) : List String := if path.toList.head? = some '/' then [] else dir

/-- Where some segments lead from a directory, as names from the root; `links` more links may be followed. With
`free`, the last name may stand for nothing yet: then the answer is the place where it would be. -/
def follow (root : FileTree) (free : Bool) (links : Nat) (here : List String) :
    List String → Except FileError (List String)
  | [] => .ok here
  | s :: rest =>
    match root.at? here with
    | some (directory entries) =>
      if s = "" ∨ s = "." then follow root free links here rest
      else if s = ".." then follow root free links here.dropLast rest
      else if nameLimit < s.utf8ByteSize then .error .nameTooLong
      else
        match entries.lookup s with
        | none => if free && rest.isEmpty then .ok (here ++ [s]) else .error .notFound
        | some (link target) =>
          match links with
          | 0 => .error .tooManyLinks
          | links + 1 =>
            follow root free links (start here target) (segments target ++ rest)
        | some _ => follow root free links (here ++ [s]) rest
    | some _ => .error .notDirectory
    | none => .error .notFound
termination_by segments => (links, segments.length)

/-- Where a path leads, as names from the root. -/
def locate (root : FileTree) (dir : List String) (path : String) : Except FileError (List String) :=
  if path = "" then .error .notFound
  else if '\x00' ∈ path.toList then .error .nulInPath
  else follow root false linkLimit (start dir path) (segments path)

/-- The number of bytes that a path must stay below to be opened. -/
def pathLimit : Nat := 4096

/-- The file or directory that a path leads to. -/
def open? (root : FileTree) (dir : List String) (path : String) : Except FileError FileTree := do
  if '\x00' ∈ path.toList then throw .nulInPath
  if pathLimit ≤ path.utf8ByteSize then throw .nameTooLong
  let names ← root.locate dir path
  match root.at? names with
  | some t => return t
  | none => throw .notFound

/-- The absolute path of some names. -/
def pathOf (names : List String) : String := "/" ++ "/".intercalate names

/-- The file system of a tree, for a program in one of its directories. -/
def files (root : FileTree) (dir : List String) : Files Id where
  canonical path := (root.locate dir path).map pathOf
  isDirectory path :=
    match root.open? dir path with
    | .ok (directory _) => true
    | _ => false
  isFile path :=
    match root.open? dir path with
    | .ok (file _) => true
    | _ => false
  read path :=
    match root.open? dir path with
    | .ok (file content) => .ok content
    | .ok _ => .error .isDirectory
    | .error e => .error e

end FileTree

end BuildGraph
