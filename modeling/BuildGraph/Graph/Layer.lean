import BuildGraph.Graph.Basic
import BuildGraph.Text.Blank

/-!
# Sources, copies and merges

These are the builds that run nothing: a source brings a filesystem in from outside, a copy takes a path out of
a state and puts it on top of another, a merge lays states over each other.
-/

namespace BuildGraph.Build

def source (s : Source) : Build GraphError State := do
  let vertex ← intern ⟨.source s, []⟩
  return .ofOutput (← output vertex 0)

def image (reference : String) : Build GraphError State := do
  match ImageRef.normalize reference with
  | .error problem => ofExcept (.error (.invalidImageRef reference problem))
  | .ok name => source ⟨"docker-image://" ++ name, .empty⟩

/-- The name of a local directory has no blanks and no slashes. -/
def isLocalName (name : String) : Bool :=
  name != "" && !name.toList.any fun c => Text.isBlank c || c == '/'

def localHint : String := "local.sharedkeyhint"

/-- The local directory that is handed over under a name. -/
def localDir (name : String) : Build GraphError State := do
  if !isLocalName name then ofExcept (.error (.invalidLocalName name))
  source ⟨"local://" ++ name, .ofList [(localHint, name)]⟩

/-- A path reached from a directory. An empty path stays empty, for the check of operations to find. -/
def resolve (dir path : String) : String := if path = "" then "" else Path.join dir path

def copyVertex (src : State) (srcPath : String) (dest : State) (destPath : String) (flags : CopyFlags) : Vertex :=
  let destInput := slot [] dest
  let srcInput := slot destInput.2 src
  ⟨.copy ⟨destInput.1, srcInput.1, resolve src.dir srcPath, resolve dest.dir destPath, flags⟩, srcInput.2⟩

/-- A path of one state on top of another, whose setting the result has. -/
def copy (src : State) (srcPath : String) (dest : State) (destPath : String) (flags : CopyFlags) :
    Build GraphError State := do
  check src
  check dest
  let vertex ← intern (copyVertex src srcPath dest destPath flags)
  return ⟨some (← output vertex 0), dest.setting⟩

/-- The places of several states among the inputs of a vertex; the empty filesystem has none. -/
def slots : List Output → List State → List Nat × List Output
  | inputs, [] => ([], inputs)
  | inputs, s :: ss =>
    let input := slot inputs s
    let rest := slots input.2 ss
    (input.1.toList ++ rest.1, rest.2)

def mergeVertex (layers : List State) : Vertex :=
  let inputs := slots [] layers
  ⟨.merge ⟨inputs.1⟩, inputs.2⟩

/-- States laid over each other, the later ones on top. Empty filesystems do not count, and nothing has to be
done for fewer than two others. -/
def merge (states : List State) : Build GraphError State := do
  let layers := states.filter fun s => !s.isScratch
  layers.forM check
  match layers with
  | [] => return .scratch
  | [layer] => return layer
  | layers =>
    let vertex ← intern (mergeVertex layers)
    return .ofOutput (← output vertex 0)

end BuildGraph.Build
