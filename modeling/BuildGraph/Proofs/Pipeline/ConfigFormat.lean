import BuildGraph.Pipeline.Wire
import BuildGraph.Proofs.Json.RoundTrip
import BuildGraph.Proofs.Json.Text

/-!
# Configs as files

A config that is written and read again is the same config, valid or not, in both layouts of the file
(`PipelineConfig.ofBytes_written`). Two of the fields that may be missing are not written where their values stand for
their absence; the others always are. Either file is text, whatever the strings of the config are.
-/

namespace BuildGraph

open Json Fields Field Codec

theorem readsBack_baseConfig (b : BaseConfig) : BaseConfig.codec.ReadsBack b := by
  refine readsBack_imap rfl (readsBack_record ?_)
  refine readsBack_field (readsBack_required (readsBack_string _)) ?_ (by decide)
  refine readsBack_field (readsBack_required (readsBack_string _)) ?_ (by decide)
  refine readsBack_field (readsBack_required (readsBack_string _)) ?_ (by decide)
  refine readsBack_field (readsBack_required (readsBack_string _)) ?_ (by decide)
  refine readsBack_field (readsBack_required (readsBack_string _)) ?_ (by decide)
  exact readsBack_field (readsBack_required (readsBack_string _)) readsBack_done (by decide)

theorem readsBack_workspaceMode (mode : WorkspaceMode) : WorkspaceMode.codec.ReadsBack mode := by
  cases mode <;> rfl

theorem readsBack_stepConfig (s : StepConfig) : StepConfig.codec.ReadsBack s := by
  have hempty : s.env.isEmpty = true → s.env = .empty := fun h => StringMap.ext (List.isEmpty_iff.1 h)
  refine readsBack_imap rfl (readsBack_record ?_)
  refine readsBack_field (readsBack_required (readsBack_string _)) ?_ (by decide)
  refine readsBack_field (readsBack_defaulted hempty (readsBack_stringMap _)) ?_ (by decide)
  exact readsBack_field (readsBack_defaulted nofun (readsBack_workspaceMode _)) readsBack_done (by decide)

theorem readsBack_stageConfig (s : StageConfig) : StageConfig.codec.ReadsBack s := by
  have hsteps : StepConfig.codec.list.ReadsBack s.steps := readsBack_list fun step _ => readsBack_stepConfig step
  refine readsBack_imap rfl (readsBack_record ?_)
  refine readsBack_field (readsBack_required (readsBack_string _)) ?_ (by decide)
  refine readsBack_field (readsBack_defaulted nofun (readsBack_strings _)) ?_ (by decide)
  refine readsBack_field (readsBack_required hsteps) ?_ (by decide)
  refine readsBack_field (readsBack_required (readsBack_string _)) ?_ (by decide)
  refine readsBack_field (readsBack_defaulted Option.isNone_iff_eq_none.1 ?_) readsBack_done (by decide)
  exact readsBack_nullable neverNull_string fun path _ => readsBack_string path

theorem readsBack_pipelineConfig (c : PipelineConfig) : PipelineConfig.codec.ReadsBack c := by
  have hstages : StageConfig.codec.list.ReadsBack c.stages := readsBack_list fun s _ => readsBack_stageConfig s
  refine readsBack_imap rfl (readsBack_record ?_)
  refine readsBack_field (readsBack_required (readsBack_baseConfig _)) ?_ (by decide)
  exact readsBack_field (readsBack_required hstages) readsBack_done (by decide)

namespace PipelineConfig

/-- A config is read back from its file in either layout, and from an indented one that ends its last line. -/
theorem ofBytes_written (c : PipelineConfig) :
    ofBytes c.toBytes = .ok c ∧ ofBytes c.toPrettyBytes = .ok c ∧ ofBytes (c.toPrettyBytes ++ [0x0a]) = .ok c :=
  (readsBack_pipelineConfig c).run

theorem isText_toBytes (c : PipelineConfig) : IsText c.toBytes := isText_write blank_compact _ _

theorem isText_toPrettyBytes (c : PipelineConfig) : IsText c.toPrettyBytes := isText_write blank_indented _ _

end PipelineConfig

end BuildGraph
