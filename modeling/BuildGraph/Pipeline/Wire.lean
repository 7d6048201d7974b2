import BuildGraph.Json.Codec
import BuildGraph.Pipeline.Config

/-!
# Pipeline configs as JSON

The setup of a stage, the environment and the workspace mode of a step and the export path may be missing. Of
these only an empty environment and an absent export path are not written.
-/

namespace BuildGraph

open Json Fields

def BaseConfig.codec : Codec BaseConfig :=
  (record "BaseConfig" <|
    field (.required "image" .string) <|
    field (.required "system_install" .string) <|
    field (.required "dependency_install" .string) <|
    field (.required "manifest" .string) <|
    field (.required "workdir" .string) <|
    field (.required "context" .string) done).imap
  (fun (image, system, dependency, manifest, workdir, context, _) =>
    ⟨image, system, dependency, manifest, workdir, context⟩)
  (fun b => (b.image, b.systemInstall, b.dependencyInstall, b.manifest, b.workdir, b.context, ()))

def WorkspaceMode.codec : Codec WorkspaceMode where
  encode mode := .string mode.name
  decode := .oneOf ([WorkspaceMode.readWrite, .readOnly, .none].map fun mode => .plain mode.name mode)

def StepConfig.codec : Codec StepConfig :=
  (record "StepConfig" <|
    field (.required "run" .string) <|
    field (.defaulted "env" .stringMap .empty StringMap.isEmpty) <|
    field (.defaulted "workspace" WorkspaceMode.codec .readWrite fun _ => false) done).imap
  (fun (run, env, workspace, _) => ⟨run, env, workspace⟩)
  (fun s => (s.run, s.env, s.workspace, ()))

def StageConfig.codec : Codec StageConfig :=
  (record "StageConfig" <|
    field (.required "name" .string) <|
    field (.defaulted "setup" (.list .string) [] fun _ => false) <|
    field (.required "steps" (.list StepConfig.codec)) <|
    field (.required "output" .string) <|
    field (.defaulted "export_path" (.nullable .string) none Option.isNone) done).imap
  (fun (name, setup, steps, output, exportPath, _) => ⟨name, setup, steps, output, exportPath⟩)
  (fun s => (s.name, s.setup, s.steps, s.output, s.exportPath?, ()))

def PipelineConfig.codec : Codec PipelineConfig :=
  (record "PipelineConfig" <|
    field (.required "base" BaseConfig.codec) <|
    field (.required "stages" (.list StageConfig.codec)) done).imap
  (fun (base, stages, _) => ⟨base, stages⟩)
  (fun c => (c.base, c.stages, ()))

namespace PipelineConfig

/-- The config that a text is, valid or not. -/
def ofBytes (bytes : List UInt8) : Except Json.Error PipelineConfig := codec.decode.run bytes

def toBytes (c : PipelineConfig) : List UInt8 := (codec.encode c).compact

def toPrettyBytes (c : PipelineConfig) : List UInt8 := (codec.encode c).indented

end PipelineConfig

end BuildGraph
