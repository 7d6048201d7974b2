import BuildGraph.FileTree

/-!
# New names in a file tree

What is added to a `FileTree` is added at the end of a path, and the directories on the way are made where they
are missing. The way is followed as for reading, links and `..` included, so `a/../b` makes the directory `a` and
then `b` beside it. A file is written where the whole path leads, through a link at its end; a directory or a
link is made under the last name itself, which has to be free. `none` says that the path cannot be followed or
that something else is at its end.
-/

namespace BuildGraph.FileTree

/-- The tree with a node at the end of some names; a name that is not a directory on the way becomes one. -/
def put (node : FileTree) : FileTree → List String → FileTree
  | _, [] => node
  | t, name :: names =>
    let inner := put node ((t.entry? name).getD empty) names
    match t with
    | directory entries => .directory ((name, inner) :: entries.filter (·.1 != name))
    | _ => .directory [(name, inner)]

/-- A segment that stands for an entry of a directory, and not for the directory itself or the one around. -/
def isName (segment : String) : Bool := segment != "" && segment != "." && segment != ".."

/-- The place of a new name at the end of a way. Links on the way are followed; under the name there is nothing
yet, not even a link that leads nowhere. -/
def freePlace? (root : FileTree) (dir : List String) (way : List String) : Option (List String) := do
  let name ← way.getLast?
  guard (isName name && name.utf8ByteSize ≤ nameLimit)
  let around ← (root.follow false linkLimit dir (way.dropLast ++ ["."])).toOption
  guard (root.at? (around ++ [name])).isNone
  return around ++ [name]

/-- The tree with a directory at the end of a way, which may be there already. -/
def makeDirectory? (root : FileTree) (dir : List String) (way : List String) : Option FileTree :=
  match root.follow false linkLimit dir (way ++ ["."]) with
  | .ok _ => some root
  | .error _ => (root.freePlace? dir way).map (put empty root)

/-- The tree with directories behind `before`, one segment after another. -/
def makeDirectories? (dir before : List String) : FileTree → List String → Option FileTree
  | root, [] => some root
  | root, s :: rest => do makeDirectories? dir (before ++ [s]) (← root.makeDirectory? dir (before ++ [s])) rest

/-- The tree with a directory. What a directory holds that is there already stays. -/
def addDirectory? (root : FileTree) (dir : List String) (path : String) : Option FileTree :=
  makeDirectories? (start dir path) [] root (segments path)

/-- The tree with the directories around what a path names. -/
def addAround? (root : FileTree) (dir : List String) (path : String) : Option FileTree :=
  makeDirectories? (start dir path) [] root (segments path).dropLast

/-- The tree with a file, in place of the file where the path leads if there is one. -/
def addFile? (root : FileTree) (dir : List String) (path : String) (content : List UInt8) : Option FileTree := do
  let root ← root.addAround? dir path
  let place ← (root.follow true linkLimit (start dir path) (segments path)).toOption
  match root.at? place with
  | some (directory _) => none
  | _ => return put (.file content) root place

/-- The tree with a link under a new name. -/
def addLink? (root : FileTree) (dir : List String) (path target : String) : Option FileTree := do
  let root ← root.addAround? dir path
  let place ← root.freePlace? (start dir path) (segments path)
  return put (.link target) root place

end BuildGraph.FileTree
