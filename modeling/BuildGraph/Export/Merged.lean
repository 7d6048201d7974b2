import BuildGraph.Pipeline.Assemble

/-!
# The merged tree

The results of the stages are laid over each other in order, so where two of them have the same file the later
stage wins. A `Layer` is where a stage's result lies. The owner of a path is the last stage whose layer contains
it; a layer is shadowed when its own path is not its stage's, and two layers overlap when one contains the
other.
-/

namespace BuildGraph

/-- The path in normal form at which the result of a stage lies. -/
structure Layer where
  path : String
  stage : String
deriving DecidableEq, Repr

namespace Layer

def ofStage (s : Stage) : Layer := ⟨Path.normalize s.exportPath, s.name⟩

/-- A path is that of the layer or lies below it. -/
def holds (l : Layer) (path : String) : Bool := (Path.stripBase? path l.path).isSome

/-- One of the layers lies in the other. -/
def overlaps (a b : Layer) : Bool := b.holds a.path || a.holds b.path

end Layer

/-- Two layers of which one lies in the other. -/
structure Overlap where
  earlier : Layer
  later : Layer
deriving DecidableEq, Repr

/-- What is said of an overlap. -/
def Overlap.message : String := "stage outputs overlap, later stage wins on conflicting files"

/-- The overlaps of some layers with those before them and with each other. -/
def overlapsBehind : List Layer → List Layer → List Overlap
  | _, [] => []
  | earlier, l :: ls => (earlier.filter (·.overlaps l)).map (⟨·, l⟩) ++ overlapsBehind (earlier ++ [l]) ls

/-- The overlay of all stages, and the layers it consists of. -/
structure MergedRoot where
  state : State
  layers : List Layer
deriving DecidableEq

namespace MergedRoot

/-- The stage that a path of the merged tree comes from. -/
def owner (m : MergedRoot) (path : String) : Option String :=
  (m.layers.reverse.find? (·.holds path)).map (·.stage)

/-- Every layer's path with its last stage. -/
def provenance (m : MergedRoot) : StringMap := .ofList (m.layers.map fun l => (l.path, l.stage))

/-- A later stage covers the layer at least in part. -/
def isShadowed (m : MergedRoot) (l : Layer) : Bool := m.owner l.path != some l.stage

def shadowed (m : MergedRoot) : List Layer := m.layers.filter m.isShadowed

/-- The pairs of layers that overlap, by the later one. -/
def overlaps (m : MergedRoot) : List Overlap := overlapsBehind [] m.layers

end MergedRoot

/-- Lays the results of all stages over each other. -/
def Build.mergeStages (p : Pipeline) : Build GraphError MergedRoot := do
  return ⟨← merge p.states, p.stages.map .ofStage⟩

end BuildGraph
