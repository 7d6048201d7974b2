import BuildGraph.Proofs.Definition.Acceptance
import BuildGraph.Proofs.Definition.Commitment
import BuildGraph.Proofs.Export.Merge
import BuildGraph.Proofs.Pipeline.Assembly
import BuildGraph.Proofs.Pipeline.Encodable
import BuildGraph.Proofs.Pipeline.Workspace

/-!
# When a config has a definition

A config goes through five passes on its way to a definition: it is validated, assembled, merged, marshaled and
checked. Only the first two and marshaling can refuse it. What is assembled stands for trees in which every string of
the config has been joined, normalized and stripped, and marshaling finds an invalid operation there just if the
config cannot be encoded (`compile_verdict`).
-/

namespace BuildGraph

/-- A config that is compiled for a workspace is compiled by itself once the manifest has been found. -/
theorem run_compileIn (files : Files Id) (w : Workspace) (c : PipelineConfig) (platform : Platform) :
    Id.run (compileIn files w c platform) =
      (Id.run (w.manifest files c.base.manifest)).mapError ExportError.workspace >>= fun _ => compile c platform := by
  rw [compileIn, Id.run_bind]
  cases Id.run (w.manifest files c.base.manifest) <;> rfl

namespace Build

variable {c : PipelineConfig} {platform : Platform}

/-- The stages of a pipeline can be merged into an overlay of what they stand for. -/
theorem exists_mergeStages {g : Graph} (hg : g.Sound) {p : Pipeline} {us : List Unfolding} (hne : us ≠ [])
    (h : List.Forall₂ (fun stage u => g.Stands stage.state u) p.stages us) :
    ∃ merged g' u, (mergeStages p).run g = (.ok merged, g') ∧ g'.Sound ∧ g'.Stands merged.state u ∧ u.Overlay us := by
  have hstates : List.Forall₂ g.Stands p.states us := List.forall₂_map_left_iff.2 h
  obtain ⟨s, g', u, hrun, hmerged⟩ := exists_merge hg hne hstates
  exact ⟨⟨s, p.stages.map .ofStage⟩, g', u, run_bind_ok hrun, hmerged⟩

/-- The stages of an assembled config can be merged into an overlay of the trees of its recipes. -/
theorem exists_overlay_of_assemble {g g' : Graph} (hg : g.Sound) {p : Pipeline}
    (h : (assemble c).run g = (.ok p, g')) :
    ∃ rs merged g'' u, c.recipe = .ok rs ∧ g'.Sound ∧
      List.Forall₂ (fun (stage : Stage) (r : StageRecipe) => g'.Stands stage.state r.tree) p.stages rs ∧
      (mergeStages p).run g' = (.ok merged, g'') ∧ g''.Sound ∧ g''.Stands merged.state u ∧
      u.Overlay (rs.map StageRecipe.tree) := by
  obtain ⟨hg', rs, hrs, hstages⟩ := stands_of_assemble hg h
  obtain ⟨hvalid, hrecipes⟩ := PipelineConfig.recipe_eq_ok_iff.1 hrs
  have hne : rs.map StageRecipe.tree ≠ [] := by
    intro hnil
    rw [List.map_eq_nil_iff.1 hnil] at hrecipes
    exact hvalid.stages (List.forall₂_nil_right_iff.1 hrecipes)
  obtain ⟨merged, g'', u, hmerged⟩ := exists_mergeStages hg' hne (List.forall₂_map_right_iff.2 hstages)
  exact ⟨rs, merged, g'', u, hrs, hg', hstages, hmerged⟩

/-- The stages of an assembled config can be merged, and the result is valid if the config can be encoded. -/
theorem exists_merged_of_assemble {id : GraphId} {p : Pipeline} {g : Graph}
    (h : (assemble c).run (.empty id) = (.ok p, g)) :
    ∃ merged g' u, (mergeStages p).run g = (.ok merged, g') ∧ g'.Sound ∧ g'.Stands merged.state u ∧
      (u.Valid ↔ c.Encodable) := by
  obtain ⟨rs, merged, g', u, hrs, -, -, hmerged, hg', hstands, hoverlay⟩ :=
    exists_overlay_of_assemble (Graph.sound_empty id) h
  refine ⟨merged, g', u, hmerged, hg', hstands, ?_⟩
  rw [hoverlay.valid_iff, List.forall_mem_map, PipelineConfig.valid_trees_iff hrs]

/-- What is left to do once the stages have been merged. -/
theorem compile_of_merged {p : Pipeline} {g g' : Graph} {merged : MergedRoot}
    (hp : (assemble c).run (.empty ⟨0⟩) = (.ok p, g)) (hmerged : (mergeStages p).run g = (.ok merged, g')) :
    BuildGraph.compile c platform = do
      let definition ← (BuildGraph.marshal g' merged.state platform).mapError .marshal
      let _ ← (Dag.ofDefinition definition).mapError .dag
      return ⟨definition, merged⟩ := by
  have hassembled : ((assemble c).mapError ExportError.pipeline).run (.empty ⟨0⟩) = (.ok p, g) :=
    run_mapError_eq_ok_iff.2 hp
  have hmerged : ((mergeStages p).mapError ExportError.graph).run g = (.ok merged, g') :=
    run_mapError_eq_ok_iff.2 hmerged
  rw [BuildGraph.compile, compile, run_bind_ok hassembled, exportPipeline, run_bind_ok hmerged, run_bind, run_inspect]
  cases BuildGraph.marshal g' merged.state platform with
  | error e => rfl
  | ok d =>
      simp only [Except.mapError, bind, Except.bind]
      cases Dag.ofDefinition d <;> rfl

/-- The check of a definition that is refused for nothing has told all encodings apart. -/
theorem collisionFree_of_compile (h : ∀ e, BuildGraph.compile c platform ≠ .error (.dag e)) {p : Pipeline}
    {g g' : Graph} {merged : MergedRoot} {d : Definition} (hp : (assemble c).run (.empty ⟨0⟩) = (.ok p, g))
    (hmerged : (mergeStages p).run g = (.ok merged, g'))
    (hd : BuildGraph.marshal g' merged.state platform = .ok d) : CollisionFree d.encodings := by
  cases hdag : Dag.ofDefinition d with
  | ok dag => exact (Dag.ofDefinition_eq_ok_iff.1 hdag).1.collisionFree
  | error e =>
      refine absurd ?_ (h e)
      rw [compile_of_merged hp hmerged, hd]
      change ((Dag.ofDefinition d).mapError ExportError.dag >>= fun _ => _) = _
      rw [hdag]
      rfl

/-- A config that has a definition has been assembled. -/
theorem exists_assemble_of_compile {x : Export} (h : BuildGraph.compile c platform = .ok x) :
    ∃ p g, (assemble c).run (.empty ⟨0⟩) = (.ok p, g) := by
  obtain ⟨g', hrun⟩ : ∃ g', (compile c platform).run (.empty ⟨0⟩) = (.ok x, g') := ⟨_, Prod.ext h rfl⟩
  obtain ⟨p, g, hassembled, -⟩ := run_bind_eq_ok_iff.1 hrun
  exact ⟨p, g, run_mapError_eq_ok_iff.1 hassembled⟩

end Build

/-- Where SHA-256 does not collide on what is listed, a config has a definition just if it can be assembled, in a
graph that has nothing, and can be encoded. A config that can be assembled but not encoded is refused for an invalid
operation. -/
theorem compile_verdict (c : PipelineConfig) (platform : Platform)
    (hc : ∀ p g merged g' d, (Build.assemble c).run (.empty ⟨0⟩) = (.ok p, g) →
      (Build.mergeStages p).run g = (.ok merged, g') → marshal g' merged.state platform = .ok d →
      CollisionFree d.encodings)
    (id : GraphId) :
    ((∃ x, compile c platform = .ok x) ↔
      (∃ p g, (Build.assemble c).run (.empty id) = (.ok p, g)) ∧ c.Encodable) ∧
    ((∃ p g, (Build.assemble c).run (.empty id) = (.ok p, g)) → ¬c.Encodable →
      ∃ kind description reason, compile c platform = .error (.marshal (.invalidOp kind description reason))) := by
  have hempty : (∃ p g, (Build.assemble c).run (.empty id) = (.ok p, g)) ↔
      ∃ p g, (Build.assemble c).run (.empty ⟨0⟩) = (.ok p, g) :=
    (Build.exists_assemble_iff c (Graph.sound_empty id)).trans
      (Build.exists_assemble_iff c (Graph.sound_empty ⟨0⟩)).symm
  rw [hempty]
  by_cases hassembled : ∃ p g, (Build.assemble c).run (.empty ⟨0⟩) = (.ok p, g)
  · obtain ⟨p, g, hp⟩ := hassembled
    obtain ⟨merged, g', u, hmerged, hg', hstands, hencodable⟩ := Build.exists_merged_of_assemble hp
    obtain ⟨hok, herror⟩ := marshal_verdict hg' hstands platform
    rw [hencodable] at hok herror
    rw [Build.compile_of_merged hp hmerged]
    refine ⟨?_, fun _ hno => ?_⟩
    · rw [and_iff_right ⟨p, g, hp⟩, ← hok]
      constructor
      · rintro ⟨x, hx⟩
        obtain ⟨d, hd, -⟩ := bind_eq_ok_iff.1 hx
        exact ⟨d, mapError_eq_ok_iff.1 hd⟩
      · rintro ⟨d, hd⟩
        have hwellFormed := wellFormed_marshal hg' hd (hc p g merged g' d hp hmerged hd)
        have hdag := Dag.ofDefinition_eq_ok_iff.2 ⟨hwellFormed, rfl⟩
        have hmarshal : (marshal g' merged.state platform).mapError ExportError.marshal = .ok d :=
          mapError_eq_ok_iff.2 hd
        exact ⟨⟨d, merged⟩, bind_eq_ok_iff.2 ⟨d, hmarshal, bind_eq_ok_iff.2 ⟨_, mapError_eq_ok_iff.2 hdag, rfl⟩⟩⟩
    · obtain ⟨e, he, kind, description, reason, rfl⟩ := herror hno
      rw [he]
      exact ⟨kind, description, reason, rfl⟩
  · refine ⟨iff_of_false ?_ fun h => hassembled h.1, fun h => absurd h hassembled⟩
    rintro ⟨x, hx⟩
    exact hassembled (Build.exists_assemble_of_compile hx)

/-- A stage of one step that has a variable. -/
def variableConfig (key : String) : PipelineConfig :=
  ⟨⟨"alpine", "apk add make", "make deps", "Makefile", "/app", "src"⟩,
    [⟨"build", [], [⟨"make", .ofList [(key, "1")], .readWrite⟩], "/app/dist", none⟩]⟩

theorem encodable_variable : (variableConfig "DEBUG").Encodable where
  workdir := ⟨by decide, by decide +kernel⟩
  manifest := by decide +kernel
  stages := by
    intro s hs
    obtain rfl := List.mem_singleton.1 hs
    refine ⟨?_, by decide +kernel, by decide +kernel⟩
    intro t ht key hkey
    obtain rfl := List.mem_singleton.1 ht
    obtain rfl : key = "DEBUG" := List.mem_singleton.1 hkey
    exact ⟨by decide, by decide⟩

/-- A variable without a name cannot be encoded. -/
theorem not_encodable_variable : ¬(variableConfig "").Encodable := by
  intro h
  have hstage := h.stages _ List.mem_cons_self
  exact (hstage.env _ List.mem_cons_self "" (List.mem_singleton_self _)).1 rfl

theorem compile_verdict_variable :
    (∃ x, compile (variableConfig "DEBUG") .target = .ok x) ∧
      ∃ kind description reason,
        compile (variableConfig "") .target = .error (.marshal (.invalidOp kind description reason)) := by
  have hassemble : ∀ key ∈ ["DEBUG", ""], ∃ p g, (Build.assemble (variableConfig key)).run (.empty ⟨0⟩) = (.ok p, g) :=
    fun key hkey => Build.exists_run_eq_ok (by revert key; decide +kernel)
  have hok : (compile (variableConfig "DEBUG") .target).isOk = true := by decide +kernel
  have hrefused : ((compile (variableConfig "") .target).map fun _ => ()) = .error (.marshal
      (.invalidOp "exec" "make (cwd /app, mounts /app)" (.malformedEnv "=1"))) := by
    decide +kernel
  have hfree : ∀ e, compile (variableConfig "DEBUG") .target ≠ .error (.dag e) := by
    intro e he
    rw [he] at hok
    cases hok
  have hfreeRefused : ∀ e, compile (variableConfig "") .target ≠ .error (.dag e) := by
    intro e he
    rw [he] at hrefused
    cases hrefused
  obtain ⟨hsuccess, -⟩ := compile_verdict (variableConfig "DEBUG") .target
    (fun _ _ _ _ _ => Build.collisionFree_of_compile hfree) ⟨0⟩
  obtain ⟨-, herror⟩ := compile_verdict (variableConfig "") .target
    (fun _ _ _ _ _ => Build.collisionFree_of_compile hfreeRefused) ⟨0⟩
  exact ⟨hsuccess.2 ⟨hassemble _ (by simp), encodable_variable⟩,
    herror (hassemble _ (by simp)) not_encodable_variable⟩

end BuildGraph
