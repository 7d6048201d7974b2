import BuildGraph.Export.Merged
import BuildGraph.Proofs.Definition.Marshalable
import BuildGraph.Proofs.Pipeline.Assembly
import BuildGraph.Proofs.Pipeline.Workspace

/-!
# Stages do not interfere

All stages are built into one graph, and what a graph has already is not built again. Still a stage comes to what it
would come to alone: its state stands for the tree of its recipe, which mentions neither the other stages nor the
graph, and a definition lists what the tree does. So the definition of a stage out of a graph with many others has
the same root and the same operations as that of the stage alone in a graph of its own (`marshal_stage_alone`).
-/

namespace BuildGraph

namespace Build

/-- A stage by itself can be assembled in any graph if it has a recipe. -/
theorem exists_assemble_single {b : BaseConfig} {s : StageConfig} (hc : (⟨b, [s]⟩ : PipelineConfig).Valid)
    {r : StageRecipe} (hr : s.recipe b = .ok r) {g : Graph} (hg : g.Sound) :
    ∃ stage g', (assemble ⟨b, [s]⟩).run g = (.ok ⟨[stage]⟩, g') ∧ g'.Sound ∧ g'.Stands stage.state r.tree := by
  have hrecipe : (⟨b, [s]⟩ : PipelineConfig).recipe = .ok [r] :=
    PipelineConfig.recipe_eq_ok_iff.2 ⟨hc, .cons hr .nil⟩
  obtain ⟨⟨stages⟩, g', hrun⟩ := exists_assemble hrecipe hg
  obtain ⟨hg', rs, hrs, hstages⟩ := stands_of_assemble hg hrun
  obtain rfl := Except.ok.inj (hrecipe.symm.trans hrs)
  match stages, hstages with
  | [stage], .cons hstands .nil => exact ⟨stage, g', hrun, hg', hstands⟩

/-- There is nothing to merge for one stage. -/
theorem run_mergeStages_single {g : Graph} {stage : Stage} {u : Unfolding} (h : g.Stands stage.state u) :
    (mergeStages ⟨[stage]⟩).run g = (.ok ⟨stage.state, [.ofStage stage]⟩, g) := by
  have hcheck := h.check
  obtain ⟨o, ho, -⟩ := h
  have hlayers : layersOf [stage.state] = [stage.state] := by simp [layersOf, State.isScratch, ho]
  have hmerge := run_merge [stage.state] g
  rw [hlayers, acceptLayers, hcheck] at hmerge
  exact run_bind_ok hmerge

end Build

theorem PipelineConfig.Valid.single {c : PipelineConfig} (hc : c.Valid) {s : StageConfig} (hs : s ∈ c.stages) :
    (⟨c.base, [s]⟩ : PipelineConfig).Valid where
  stages := List.cons_ne_nil s []
  workdir := hc.workdir
  manifest := hc.manifest
  each := by
    intro t ht
    rw [List.mem_singleton.1 ht]
    exact hc.each s hs
  names := List.nodup_singleton _

/-- Whatever a graph has, and whatever other stages are assembled into it: if the state of a stage has a definition,
then the stage can be assembled alone in an empty graph, its merged root has a definition there, and both
definitions have the same root and the same operations. -/
theorem marshal_stage_alone {c : PipelineConfig} {g g' : Graph} {p : Pipeline} (hg : g.Reachable)
    (h : (Build.assemble c).run g = (.ok p, g')) :
    List.Forall₂
      (fun s stage => ∀ platform d, marshal g' stage.state platform = .ok d → ∀ id,
        ∃ p₁ g₁ merged g₂ d₁,
          (Build.assemble ⟨c.base, [s]⟩).run (.empty id) = (.ok p₁, g₁) ∧
          (Build.mergeStages p₁).run g₁ = (.ok merged, g₂) ∧
          marshal g₂ merged.state platform = .ok d₁ ∧
          d₁.root = d.root ∧ ∀ e, e ∈ d₁.ops ↔ e ∈ d.ops)
      c.stages p.stages := by
  obtain ⟨hg', rs, hrs, hstands⟩ := Build.stands_of_assemble hg.sound h
  obtain ⟨hc, hrecipes⟩ := PipelineConfig.recipe_eq_ok_iff.1 hrs
  have hstages := forall₂_comp hrecipes hstands.flip
  have hmem : ∀ s ∈ c.stages, s ∈ c.stages := fun _ hs => hs
  refine ((List.forall₂_and_left _ _).2 ⟨hmem, hstages⟩).imp ?_
  rintro s stage ⟨hs, r, hr, hstands⟩ platform d hd id
  obtain ⟨alone, g₁, hassemble, hg₁, halone⟩ :=
    Build.exists_assemble_single (hc.single hs) hr (Graph.sound_empty id)
  have hvalid : r.tree.Valid := (marshal_verdict hg' hstands platform).1.1 ⟨d, hd⟩
  obtain ⟨d₁, hd₁⟩ := (marshal_verdict hg₁ halone platform).1.2 hvalid
  obtain ⟨hroot, hops⟩ := marshal_of_stands hg' hstands hd
  obtain ⟨hroot₁, hops₁⟩ := marshal_of_stands hg₁ halone hd₁
  refine ⟨_, g₁, _, g₁, d₁, hassemble, Build.run_mergeStages_single halone, hd₁, ?_, ?_⟩
  · rw [hroot₁, hroot]
  · exact fun e => (hops₁ e).trans (hops e).symm

/-- Two stages with a step in common, of which the second one has a setup. -/
def sharedConfig : PipelineConfig :=
  ⟨⟨"alpine", "apk add make", "make deps", "Makefile", "/app", "src"⟩,
    [⟨"build", [], [⟨"make", .empty, .readWrite⟩], "/app/dist", none⟩,
      ⟨"docs", ["apk add pandoc"], [⟨"make", .empty, .readWrite⟩, ⟨"make docs", .empty, .readOnly⟩], "/srv/docs",
        some "/docs"⟩]⟩

/-- Both stages are built into a graph that has vertices already, and both have definitions. -/
theorem marshal_shared :
    ∃ p g', (Build.assemble sharedConfig).run sampleGraph = (.ok p, g') ∧
      ∀ stage ∈ p.stages, ∃ d, marshal g' stage.state .target = .ok d := by
  obtain ⟨p, g', hrun⟩ : ∃ p g', (Build.assemble sharedConfig).run sampleGraph = (.ok p, g') :=
    Build.exists_run_eq_ok (by decide +kernel)
  have hall : ((Build.assemble sharedConfig).run sampleGraph).1.toOption.any (fun p => p.stages.all fun stage =>
      (marshal ((Build.assemble sharedConfig).run sampleGraph).2 stage.state .target).isOk) = true := by
    decide +kernel
  rw [hrun] at hall
  exact ⟨p, g', hrun, fun stage hstage => exists_eq_ok (List.all_eq_true.1 hall stage hstage)⟩

theorem marshal_stage_alone_shared :
    sampleGraph.Reachable ∧ ∃ p g', (Build.assemble sharedConfig).run sampleGraph = (.ok p, g') ∧
      List.Forall₂
        (fun s stage => ∃ d, marshal g' stage.state .target = .ok d ∧
          ∃ p₁ g₁ merged g₂ d₁,
            (Build.assemble ⟨sharedConfig.base, [s]⟩).run (.empty ⟨7⟩) = (.ok p₁, g₁) ∧
            (Build.mergeStages p₁).run g₁ = (.ok merged, g₂) ∧ marshal g₂ merged.state .target = .ok d₁ ∧
            d₁.root = d.root ∧ ∀ e, e ∈ d₁.ops ↔ e ∈ d.ops)
        sharedConfig.stages p.stages := by
  obtain ⟨p, g', hrun, hmarshal⟩ := marshal_shared
  have halone := (marshal_stage_alone reachable_sample hrun).flip
  refine ⟨reachable_sample, p, g', hrun, (((List.forall₂_and_left _ _).2 ⟨hmarshal, halone⟩).imp ?_).flip⟩
  rintro stage s ⟨⟨d, hd⟩, hs⟩
  exact ⟨d, hd, hs .target d hd ⟨7⟩⟩

end BuildGraph
