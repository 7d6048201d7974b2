import BuildGraph.Definition.Dag
import BuildGraph.Definition.Marshal
import BuildGraph.Export.Merged
import BuildGraph.Workspace

/-!
# From a config to a definition

`Build.exportPipeline` merges the stages, turns the result into a definition and checks the definition like one
that comes from elsewhere. `compile` does that for a config, from an empty graph. `compileIn` first makes sure
that the workspace has the manifest.
-/

namespace BuildGraph

/-- Why a config has no definition. -/
inductive ExportError
  | graph (reason : GraphError)
  | marshal (reason : MarshalError)
  | dag (reason : DagError)
  | pipeline (reason : PipelineError)
  | workspace (reason : WorkspaceError)
deriving DecidableEq, Repr

def ExportError.message : ExportError → String
  | graph reason => reason.message
  | marshal reason => reason.message
  | dag reason => "definition is not well formed: " ++ reason.message
  | pipeline reason => reason.message
  | workspace reason => reason.message

/-- A definition that holds together, and what its tree consists of. -/
structure Export where
  definition : Definition
  merged : MergedRoot

/-- The definition of all stages of a pipeline. -/
def Build.exportPipeline (p : Pipeline) (platform : Platform) : Build ExportError Export := do
  let merged ← (mergeStages p).mapError .graph
  let definition ← inspect fun g => (BuildGraph.marshal g merged.state platform).mapError .marshal
  let _ ← ofExcept ((Dag.ofDefinition definition).mapError .dag)
  return ⟨definition, merged⟩

/-- The definition of a config, built by itself. -/
def Build.compile (c : PipelineConfig) (platform : Platform) : Build ExportError Export := do
  let pipeline ← (assemble c).mapError .pipeline
  exportPipeline pipeline platform

/-- The definition of a config. -/
def compile (c : PipelineConfig) (platform : Platform) : Except ExportError Export :=
  ((Build.compile c platform).run (.empty ⟨0⟩)).1

/-- The definition of a config for a workspace that has its manifest. -/
def compileIn {m : Type → Type} [Monad m] (files : Files m) (w : Workspace) (c : PipelineConfig)
    (platform : Platform) : m (Except ExportError Export) := do
  match ← w.manifest files c.base.manifest with
  | .error reason => return .error (.workspace reason)
  | .ok _ => return compile c platform

end BuildGraph
