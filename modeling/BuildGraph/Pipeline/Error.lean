import BuildGraph.Files
import BuildGraph.Graph.Basic
import BuildGraph.Json.Error
import BuildGraph.Pipeline.Config

/-!
# What keeps a pipeline from being made

A config file can be missing, not be JSON of the right shape, or say something invalid. What it asks for can be
impossible to build, in the base or in one of the stages.
-/

namespace BuildGraph

inductive PipelineError
  | read (path : String) (reason : FileError)
  | parse (path : String) (reason : Json.Error)
  | invalidConfig (problem : ConfigProblem)
  | base (reason : GraphError)
  | stage (name : String) (reason : GraphError)
deriving DecidableEq, Repr

def PipelineError.message : PipelineError → String
  | read path reason => "failed to read config " ++ path ++ ": " ++ reason.message
  | parse path reason => "failed to parse config " ++ path ++ ": " ++ reason.message
  | invalidConfig problem => "invalid pipeline config: " ++ problem.message
  | base reason => "base: " ++ reason.message
  | stage name reason => "stage " ++ Text.quote name ++ ": " ++ reason.message

end BuildGraph
