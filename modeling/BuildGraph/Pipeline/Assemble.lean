import BuildGraph.Graph.Layer
import BuildGraph.Graph.Run
import BuildGraph.Pipeline.Error

/-!
# Pipelines

`assemble` builds every stage of a config from the top, as if it were alone: the image, the system packages, the
manifest out of the workspace, the dependencies, then the setup and the steps of the stage, and a copy of its
result. Nothing is shared on purpose. What stages have in common becomes the same vertices because a graph
interns what is added to it.

While the steps of a stage run, the workspace is threaded through those that may change it, and the last run is
kept: the result of the stage is looked up among its filesystems.
-/

namespace BuildGraph

/-- An assembled stage: the state that has nothing but its result, where that lay, and where it lies now. -/
structure Stage where
  name : String
  state : State
  outputPath : String
  exportPath : String
deriving DecidableEq

structure Pipeline where
  stages : List Stage
deriving DecidableEq

namespace Pipeline

def stage? (p : Pipeline) (name : String) : Option Stage := p.stages.find? (·.name == name)

def states (p : Pipeline) : List State := p.stages.map (·.state)

end Pipeline

namespace Build

def command (base : State) (line : String) (mounts : List Mount) (env : StringMap) :
    Build GraphError RunResult := do
  let options ← ofExcept (RunOptions.ofCommand line)
  exec base { options with mounts, env }

/-- The filesystem of a command that needs no more than its base. -/
def plainCommand (base : State) (line : String) : Build GraphError State := do
  return (← command base line [] .empty).root

/-- The path of the manifest in the workspace, as an absolute one. -/
def manifestPath (b : BaseConfig) : String := Path.join "/" b.manifest

/-- The state that every stage starts from: system packages and dependencies are installed. -/
def baseState (b : BaseConfig) : Build GraphError State := do
  let system ← plainCommand ((← image b.image).withDir b.workdir) b.systemInstall
  let context ← localDir b.context
  let manifest ← copy context (manifestPath b) .scratch (manifestPath b) .extract
  return (← command system b.dependencyInstall [⟨b.workdir, manifest, none, true⟩] .empty).root

/-- Where a stage is: its root filesystem, the workspace, and the last run. -/
structure Progress where
  current : State
  workspace : State
  last : Option RunResult

def stepMounts (workdir : String) (workspace : State) : WorkspaceMode → List Mount
  | .readWrite => [⟨workdir, workspace, none, false⟩]
  | .readOnly => [⟨workdir, workspace, none, true⟩]
  | .none => []

def nextWorkspace (workdir : String) (workspace : State) (r : RunResult) :
    WorkspaceMode → Except GraphError State
  | .readWrite => r.mount workdir
  | .readOnly | .none => .ok workspace

def step (workdir : String) (p : Progress) (s : StepConfig) : Build GraphError Progress := do
  let r ← command p.current s.run (stepMounts workdir p.workspace s.workspace) s.env
  let workspace ← ofExcept (nextWorkspace workdir p.workspace r s.workspace)
  return ⟨r.root, workspace, some r⟩

def stageRuns (b : BaseConfig) (s : StageConfig) (start : State) : Build GraphError Progress := do
  let current ← s.setup.foldlM plainCommand start
  let workspace ← localDir b.context
  s.steps.foldlM (step b.workdir) ⟨current, workspace, none⟩

/-- The result of a stage, taken out of the filesystem that holds it after the last run. -/
def stageResult (s : StageConfig) (last : RunResult) : Build GraphError Stage := do
  let (holder, path) := last.holder s.output
  let state ← copy holder path .scratch s.exportPath .extract
  return ⟨s.name, state, s.output, s.exportPath⟩

def stage (b : BaseConfig) (s : StageConfig) : Build PipelineError Stage := do
  let start ← (baseState b).mapError .base
  let progress ← (stageRuns b s start).mapError (.stage s.name)
  match progress.last with
  | none => ofExcept (.error (.invalidConfig (.noSteps s.name)))
  | some last => (stageResult s last).mapError (.stage s.name)

def assemble (c : PipelineConfig) : Build PipelineError Pipeline := do
  ofExcept (c.validate.mapError .invalidConfig)
  return ⟨← c.stages.mapM (stage c.base)⟩

end Build

end BuildGraph
