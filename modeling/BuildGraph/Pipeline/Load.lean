import BuildGraph.Pipeline.Error
import BuildGraph.Pipeline.Wire

/-!
# Config files

A config file that is used is a valid config. Which file that is depends on who asks: a file that is asked for
goes first, then one that an environment variable names, then the one at the root of the workspace.
-/

namespace BuildGraph.PipelineConfig

def load {m : Type → Type} [Monad m] (files : Files m) (path : String) :
    m (Except PipelineError PipelineConfig) := do
  match ← files.readText path with
  | .error reason => return .error (.read path reason)
  | .ok text =>
    match ofBytes (Json.utf8 text) with
    | .error reason => return .error (.parse path reason)
    | .ok config => return (config.validate.mapError .invalidConfig).map fun _ => config

def fileName : String := "stagegraph.json"

def variableName : String := "STAGEGRAPH_CONFIG"

/-- The config file that somebody names: the one asked for, else that of the variable unless it is empty. -/
def named? (explicit fromEnv : Option String) : Option String := explicit.or (fromEnv.filter (· != ""))

/-- The config file that applies: the one that somebody names, else the one in the workspace if there is one. -/
def resolvePath {m : Type → Type} [Monad m] (files : Files m) (explicit fromEnv : Option String)
    (workspace : String) : m (Option String) := do
  match named? explicit fromEnv with
  | some path => return some path
  | none =>
    let path := hostJoin workspace fileName
    if ← files.isFile path then return some path else return none

end BuildGraph.PipelineConfig
