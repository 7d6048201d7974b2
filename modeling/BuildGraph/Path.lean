/-!
# Paths of a build filesystem

A path is text whose segments are separated by `/`. It is absolute when it begins with `/`. An empty segment
and the segment `.` stay where they are, `..` goes up, any other segment goes down. `normalize` brings a path
to the one normal form of the walk it describes: no empty segment, no `.`, and `..` only at the front of a
relative path, where there is nothing to go up from. An absolute path never climbs above `/`.

The segments met so far are kept as a stack, the deepest first, so that going up is dropping the head.
Nothing here looks at a file.
-/

namespace BuildGraph.Path

abbrev Segment := List Char

def here : Segment := ['.']

def up : Segment := ['.', '.']

def segments (path : List Char) : List Segment := path.splitOn '/'

def isAbsolute (path : List Char) : Bool := path.head? == some '/'

/-- One more segment on the stack. Only a relative path keeps a `..` it cannot resolve. -/
def step (absolute : Bool) (stack : List Segment) (s : Segment) : List Segment :=
  if s = [] ∨ s = here then stack
  else if s = up then
    match stack with
    | [] => if absolute then [] else [up]
    | top :: below => if top = up then (if absolute then stack else up :: stack) else below
  else s :: stack

/-- The stack that the segments of a path lead to from the empty one. -/
def reduce (path : List Char) : List Segment :=
  (segments path).foldl (step (isAbsolute path)) []

/-- The text of a normal form: its segments, and whether it is absolute. -/
def render (absolute : Bool) (parts : List Segment) : List Char :=
  let joined := ['/'].intercalate parts
  if absolute then '/' :: joined else if parts = [] then here else joined

def normalize (path : String) : String :=
  String.ofList (render (isAbsolute path.toList) (reduce path.toList).reverse)

/-- The path that is reached by `path` from `base`. An absolute `path` does not depend on `base`. -/
def join (base path : String) : String :=
  if isAbsolute path.toList then normalize path else normalize (base ++ "/" ++ path)

/-- If `path` is `base` or lies below it, what follows `base`, as an absolute path. -/
def stripBase? (path base : String) : Option String :=
  let path := normalize path
  let base := normalize base
  if base = "/" then some path
  else if path = base then some "/"
  else
    match base.toList.isPrefixOf? path.toList with
    | some ('/' :: rest) => some (String.ofList ('/' :: rest))
    | _ => none

end BuildGraph.Path
