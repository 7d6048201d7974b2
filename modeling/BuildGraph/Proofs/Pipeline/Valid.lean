import BuildGraph.Pipeline.Config
import BuildGraph.Proofs.Check
import Mathlib.Data.List.Nodup

/-!
# Valid configs

`PipelineConfig.validate` reports the first problem that it finds. What it accepts is described without an order:
the stages have different names, and each of them is in order by itself.
-/

namespace BuildGraph

/-- A stage has a name and steps, and says where its result is with absolute paths. -/
structure StageConfig.Valid (s : StageConfig) : Prop where
  name : s.name ≠ ""
  steps : s.steps ≠ []
  output : Path.isAbsolute s.output.toList = true
  exportPath : Path.isAbsolute s.exportPath.toList = true

/-- There are stages, all in order, with different names, and the base says where the workspace and the manifest
are. -/
structure PipelineConfig.Valid (c : PipelineConfig) : Prop where
  stages : c.stages ≠ []
  workdir : Path.isAbsolute c.base.workdir.toList = true
  manifest : PipelineConfig.isManifest c.base.manifest = true
  each : ∀ s ∈ c.stages, s.Valid
  names : (c.stages.map (·.name)).Nodup

namespace PipelineConfig

theorem checkStage_eq_ok_iff {earlier : List String} {s : StageConfig} :
    checkStage earlier s = .ok () ↔ s.Valid ∧ s.name ∉ earlier := by
  unfold checkStage
  simp only [refuse_eq_ok_iff, Bool.not_eq_true', Bool.not_eq_false]
  by_cases hexport : Path.isAbsolute s.exportPath.toList = true
  · simp only [hexport, Bool.true_eq_false, if_false]
    constructor
    · rintro ⟨hname, hnew, hsteps, houtput, -⟩
      exact ⟨⟨hname, hsteps, houtput, hexport⟩, hnew⟩
    · rintro ⟨hvalid, hnew⟩
      exact ⟨hvalid.name, hnew, hvalid.steps, hvalid.output, rfl⟩
  · rw [if_pos (Bool.eq_false_iff.2 hexport)]
    constructor
    · rintro ⟨-, -, -, -, h⟩
      cases h
    · rintro ⟨hvalid, -⟩
      exact absurd hvalid.exportPath hexport

theorem checkStages_eq_ok_iff {earlier : List String} {ss : List StageConfig} :
    checkStages earlier ss = .ok () ↔
      (∀ s ∈ ss, s.Valid ∧ s.name ∉ earlier) ∧ (ss.map (·.name)).Nodup := by
  induction ss generalizing earlier with
  | nil => simp [checkStages]
  | cons s ss ih =>
      rw [checkStages, check_bind_eq_ok_iff, checkStage_eq_ok_iff, List.forall_mem_cons, List.map_cons, List.nodup_cons]
      simp only [ih, List.mem_cons, not_or, List.mem_map, not_exists, not_and]
      constructor
      · rintro ⟨hs, hss, hnodup⟩
        exact ⟨⟨hs, fun t ht => ⟨(hss t ht).1, (hss t ht).2.2⟩⟩, fun t ht => (hss t ht).2.1, hnodup⟩
      · rintro ⟨⟨hs, hss⟩, hnew, hnodup⟩
        exact ⟨hs, fun t ht => ⟨(hss t ht).1, hnew t ht, (hss t ht).2⟩, hnodup⟩

theorem validate_eq_ok_iff {c : PipelineConfig} : c.validate = .ok () ↔ c.Valid := by
  unfold validate
  simp only [refuse_eq_ok_iff, checkStages_eq_ok_iff, Bool.not_eq_true', Bool.not_eq_false]
  constructor
  · rintro ⟨hstages, hworkdir, hmanifest, heach, hnames⟩
    exact ⟨hstages, hworkdir, hmanifest, fun s hs => (heach s hs).1, hnames⟩
  · rintro ⟨hstages, hworkdir, hmanifest, heach, hnames⟩
    exact ⟨hstages, hworkdir, hmanifest, fun s hs => ⟨heach s hs, List.not_mem_nil⟩, hnames⟩

end PipelineConfig

end BuildGraph
