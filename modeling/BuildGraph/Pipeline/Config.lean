import BuildGraph.Path
import BuildGraph.StringMap
import BuildGraph.Text.Quoted

/-!
# Pipeline configs

A config describes a base, which every stage starts from, and the stages. A stage runs its own setup and its
steps, and its result is what lies at `output` afterwards; in the merged tree that is found at the export path.
A step sees the workspace at the work directory, unless it says otherwise, and may change it.

`PipelineConfig.validate` refuses configs that say too little or contradict themselves.
-/

namespace BuildGraph

structure BaseConfig where
  image : String
  systemInstall : String
  dependencyInstall : String
  manifest : String
  workdir : String
  context : String
deriving DecidableEq, Repr

/-- How a step sees the workspace. -/
inductive WorkspaceMode
  | readWrite
  | readOnly
  | none
deriving DecidableEq, Repr

def WorkspaceMode.name : WorkspaceMode → String
  | readWrite => "read-write"
  | readOnly => "read-only"
  | none => "none"

structure StepConfig where
  run : String
  env : StringMap
  workspace : WorkspaceMode
deriving DecidableEq

structure StageConfig where
  name : String
  setup : List String
  steps : List StepConfig
  output : String
  exportPath? : Option String
deriving DecidableEq

/-- Where the result of a stage is found in the merged tree. -/
def StageConfig.exportPath (s : StageConfig) : String := s.exportPath?.getD ("/out/" ++ s.name)

structure PipelineConfig where
  base : BaseConfig
  stages : List StageConfig
deriving DecidableEq

inductive ConfigProblem
  | noStages
  | relativeWorkdir (workdir : String)
  | badManifest (manifest : String)
  | unnamedStage
  | repeatedStage (stage : String)
  | noSteps (stage : String)
  | relativeOutput (stage output : String)
  | relativeExport (stage path : String)
deriving DecidableEq, Repr

def ConfigProblem.message : ConfigProblem → String
  | noStages => "at least one stage is required"
  | relativeWorkdir workdir => "workdir " ++ Text.quote workdir ++ " must be absolute"
  | badManifest manifest =>
    "manifest " ++ Text.quote manifest ++ " must be a path relative to the workspace"
  | unnamedStage => "stage names must not be empty"
  | repeatedStage stage => "stage " ++ Text.quote stage ++ " is defined more than once"
  | noSteps stage => "stage " ++ Text.quote stage ++ " has no steps"
  | relativeOutput stage output =>
    "stage " ++ Text.quote stage ++ " output " ++ Text.quote output ++ " must be absolute"
  | relativeExport stage path =>
    "stage " ++ Text.quote stage ++ " export path " ++ Text.quote path ++ " must be absolute"

namespace PipelineConfig

/-- A stage is named unlike those before it, has steps, and says where its result is with absolute paths. -/
def checkStage (earlier : List String) (s : StageConfig) : Except ConfigProblem Unit := do
  if s.name = "" then throw .unnamedStage
  if s.name ∈ earlier then throw (.repeatedStage s.name)
  if s.steps = [] then throw (.noSteps s.name)
  if !Path.isAbsolute s.output.toList then throw (.relativeOutput s.name s.output)
  if !Path.isAbsolute s.exportPath.toList then throw (.relativeExport s.name s.exportPath)

/-- The stages of a list, behind stages with the names `earlier`. -/
def checkStages : List String → List StageConfig → Except ConfigProblem Unit
  | _, [] => .ok ()
  | earlier, s :: ss => do
    checkStage earlier s
    checkStages (s.name :: earlier) ss

def isManifest (path : String) : Bool := path != "" && !Path.isAbsolute path.toList

def validate (c : PipelineConfig) : Except ConfigProblem Unit := do
  if c.stages = [] then throw .noStages
  if !Path.isAbsolute c.base.workdir.toList then throw (.relativeWorkdir c.base.workdir)
  if !isManifest c.base.manifest then throw (.badManifest c.base.manifest)
  checkStages [] c.stages

end PipelineConfig

end BuildGraph
