import BuildGraph.Definition.Dag
import BuildGraph.Export.Merged
import BuildGraph.Json.Value

/-!
# Plans

A plan shows what a definition holds without building anything: its operations by wave, and, if it was made from
a config, where the results of the stages go. It is written as JSON or as text for readers, in which digests are
short.
-/

namespace BuildGraph

structure PlanOp where
  digest : Digest
  kind : String
  description : String
deriving DecidableEq, Repr

structure PlanStage where
  name : String
  exportPath : String
  shadowed : Bool
deriving DecidableEq, Repr

structure Plan where
  platform : Platform
  root : Option Digest
  ops : Nat
  waves : List (List PlanOp)
  stages : List PlanStage
  fileHash : Option String
deriving DecidableEq, Repr

namespace Plan

def ofOp (o : DefinitionOp) : PlanOp := ⟨o.digest, o.op.kind, o.op.describe⟩

def stagesOf (m : MergedRoot) : List PlanStage :=
  m.layers.map fun l => ⟨l.stage, l.path, m.shadowed.contains l⟩

def ofDefinition (d : Definition) (waves : List (List Digest)) (merged : Option MergedRoot)
    (fileHash : Option String) : Plan where
  platform := d.platform
  root := d.root.map (·.digest)
  ops := d.ops.length
  waves := waves.map fun wave => (wave.filterMap d.op?).map ofOp
  stages := (merged.map stagesOf).getD []
  fileHash

open Json

def opValue (o : PlanOp) : Value :=
  .object [("digest", .string o.digest.text), ("kind", .string o.kind), ("description", .string o.description)]

def stageValue (s : PlanStage) : Value :=
  .object [("name", .string s.name), ("export_path", .string s.exportPath), ("shadowed", .boolean s.shadowed)]

/-- The plan as JSON. A plan without stages or without a file does not mention them. -/
def value (p : Plan) : Value :=
  .object <|
    [("platform", .string p.platform.text),
     ("root", match p.root with | some d => .string d.text | none => .null),
     ("ops", .natural p.ops),
     ("waves", .array (p.waves.map fun wave => .array (wave.map opValue)))] ++
    (if p.stages = [] then [] else [("stages", .array (p.stages.map stageValue))]) ++
    (match p.fileHash with | some h => [("file_hash", .string h)] | none => [])

/-- The short form of a digest or a hash. Digests of a definition that holds together have one. -/
def short (text : String) : String := (Digest.shorten? text).getD ""

def stat (label value : String) : String := "  " ++ label ++ ": " ++ value

def padTo (width : Nat) (s : String) : String := s ++ String.ofList (List.replicate (width - s.length) ' ')

def opLine (o : PlanOp) : String :=
  "  • " ++ short o.digest.text ++ " " ++ padTo 6 o.kind ++ " " ++ o.description

/-- The lines of the waves, the first of which has the given number. -/
def waveLines : Nat → List (List PlanOp) → List String
  | _, [] => []
  | number, wave :: waves =>
    ["", "Wave " ++ toString number ++ ":"] ++ wave.map opLine ++ waveLines (number + 1) waves

def stageLines : List PlanStage → List String
  | [] => []
  | stages => ["", "Stages:"] ++ stages.map fun s => "  " ++ s.name ++ " → " ++ s.exportPath

def lines (p : Plan) : List String :=
  [stat "Ops" (toString p.ops), stat "Waves" (toString p.waves.length)] ++
    (match p.root with | some d => [stat "Root" (short d.text)] | none => []) ++
    (match p.fileHash with | some h => [stat "File" (short h)] | none => []) ++
    waveLines 1 p.waves ++ stageLines p.stages

/-- What a reader is warned of: results that a later stage covers. -/
def warnings (p : Plan) : List String :=
  (p.stages.filter (·.shadowed)).map fun s =>
    "output of stage '" ++ s.name ++ "' at " ++ s.exportPath ++ " is overlaid by a later stage"

end Plan

end BuildGraph
