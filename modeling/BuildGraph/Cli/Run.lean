import BuildGraph.Cli.Args
import BuildGraph.Cli.Report
import BuildGraph.Pipeline.Builtin
import BuildGraph.Pipeline.Load
import BuildGraph.Plan

/-!
# Commands

`marshal` writes the definition of a project, `plan` shows what it holds or what a definition in a file holds,
`info` names the platforms, `config` writes the config that applies. Everything a command writes is complete
before any of it is written.
-/

namespace BuildGraph.Cli

/-- What a command asks of the machine that it runs on. -/
structure Host (m : Type → Type) where
  files : Files m
  configVariable : Option String
  /-- The milliseconds since the command was started. -/
  elapsed : m Nat
  platform : Option Platform

/-- A span of time, the coarser the longer it is. -/
def durationText (milliseconds : Nat) : String :=
  let seconds := milliseconds / 1000
  if 60 ≤ seconds then toString (seconds / 60) ++ "m " ++ toString (seconds % 60) ++ "s"
  else if 0 < seconds then
    let hundredths := milliseconds % 1000 / 10
    toString seconds ++ "." ++ (if hundredths < 10 then "0" else "") ++ toString hundredths ++ "s"
  else toString milliseconds ++ "ms"

variable {m : Type → Type} [Monad m]

/-- What a failure says is missing, and the causes that are read off an error. -/
def expect {ε α : Type} (context : String) (causes : ε → List Cause) (outcome : m (Except ε α)) :
    ExceptT Failure m α := .mk do
  match ← outcome with
  | .ok a => return .ok a
  | .error e => return .error ⟨context, causes e⟩

def openWorkspace (host : Host m) (inv : Invocation) : ExceptT Failure m Workspace :=
  expect ("Failed to open workspace: " ++ inv.workspace) (fun e => [.other (WorkspaceError.message e)])
    (Workspace.openAt host.files inv.workspace)

def loadConfig (host : Host m) (inv : Invocation) (w : Workspace) : ExceptT Failure m PipelineConfig := do
  match ← ExceptT.lift (PipelineConfig.resolvePath host.files inv.config host.configVariable w.root) with
  | none => return .builtin
  | some path =>
    expect ("Failed to load config: " ++ path) PipelineError.causes (PipelineConfig.load host.files path)

def compileProject (host : Host m) (inv : Invocation) : ExceptT Failure m Export := do
  let w ← openWorkspace host inv
  let config ← loadConfig host inv w
  expect "Failed to compile pipeline" ExportError.causes (compileIn host.files w config .target)

def definitionBytes (pretty : Bool) (d : Definition) : List UInt8 :=
  if pretty then d.toPrettyBytes else d.toBytes

def marshal (host : Host m) (inv : Invocation) (pretty : Bool) : ExceptT Failure m Report := do
  let made ← compileProject host inv
  let elapsed ← ExceptT.lift host.elapsed
  let summary := toString made.definition.ops.length ++ " ops from " ++ toString made.merged.provenance.size ++
    " stage(s) for " ++ made.definition.platform.text ++ " in " ++ durationText elapsed
  return ⟨definitionBytes pretty made.definition, [.success summary], made.merged.overlaps⟩

/-- A definition, the tree it is for, and the hash of the file it was read from. -/
structure Planned where
  definition : Definition
  merged : Option MergedRoot
  fileHash : Option String

def readDefinition (host : Host m) (path : String) : ExceptT Failure m Planned := do
  let bytes ← expect ("Failed to read definition: " ++ path) (fun e => [.other (FileError.message e)])
    (host.files.read path)
  let definition ← expect ("Failed to parse definition: " ++ path) Definition.readCauses
    (pure (Definition.ofBytes bytes))
  let hash ← expect ("Failed to hash definition: " ++ path) (fun e => [.other (FileHashError.message e)])
    (host.files.hash path)
  return ⟨definition, none, some hash⟩

def planned (host : Host m) (inv : Invocation) : Option String → ExceptT Failure m Planned
  | some path => readDefinition host path
  | none => do
    let made ← compileProject host inv
    return ⟨made.definition, some made.merged, none⟩

/-- The plan of a definition that holds together. -/
def planOf (p : Planned) : ExceptT Failure m Plan := do
  let dag ← expect "Definition is not well formed" DagError.causes (pure (Dag.ofDefinition p.definition))
  let waves ← expect "Failed to order definition" DagError.causes (pure dag.waves)
  return .ofDefinition p.definition waves p.merged p.fileHash

def planReport (format : OutputFormat) (plan : Plan) (overlaps : List Overlap) : Report :=
  match format with
  | .json => ⟨valueBytes plan.value, [], overlaps⟩
  | .text =>
    ⟨linesBytes plan.lines, .success ("Plan for " ++ plan.platform.text) :: plan.warnings.map .warning, overlaps⟩

def plan (host : Host m) (inv : Invocation) (definition : Option String) (format : OutputFormat) :
    ExceptT Failure m Report := do
  let p ← planned host inv definition
  let plan ← planOf p
  return planReport format plan ((p.merged.map (·.overlaps)).getD [])

def programName : String := "stagegraph"

def programVersion : String := "0.1.0"

def platformValue (p : Platform) : Json.Value :=
  .object [("architecture", .string p.arch.name), ("os", .string p.os.name)]

def infoValue (host : Option Platform) : Json.Value :=
  .object [("definition_version", .natural Definition.currentVersion.toNat),
    ("host", match host with | some p => platformValue p | none => .null),
    ("target", platformValue .target),
    ("version", .string programVersion)]

def infoLines (host : Option Platform) : List String :=
  [programName ++ " v" ++ programVersion,
   Plan.stat "Target" Platform.target.text,
   Plan.stat "Host" (match host with | some p => p.text | none => "unsupported"),
   Plan.stat "Definition format" ("v" ++ toString Definition.currentVersion.toNat)]

def info (host : Option Platform) : OutputFormat → Report
  | .json => .ofBytes (valueBytes (infoValue host))
  | .text => .ofBytes (linesBytes (infoLines host))

def config (host : Host m) (inv : Invocation) : ExceptT Failure m Report := do
  let w ← openWorkspace host inv
  let config ← loadConfig host inv w
  return .ofBytes (config.toPrettyBytes ++ [0x0a])

/-- The report of an invocation, or why there is none. -/
def run (host : Host m) (inv : Invocation) : m (Except Failure Report) :=
  ExceptT.run <|
    match inv.command with
    | .marshal pretty => marshal host inv pretty
    | .plan definition format => plan host inv definition format
    | .info format => pure (info host.platform format)
    | .config => config host inv

/-- How the program ends that is started with an invocation. -/
def outcome (host : Host m) (inv : Invocation) : m Ended := return .of (← run host inv)

end BuildGraph.Cli
