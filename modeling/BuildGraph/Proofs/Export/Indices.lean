import BuildGraph.Proofs.Definition.WireFormat
import BuildGraph.Proofs.Export.Provenance

/-!
# The numbers of a compiled definition

What stages are built from has no number above 1: a run reads its root and at most one more filesystem, and has at
most one output besides its root. Only the merge of the stages has larger ones, as many at most as there are stages.
So a definition that was compiled from no more stages than can be counted is read back from its file
(`Export.ofBytes_toBytes_of_compile`).
-/

namespace BuildGraph

open Json

/-- All numbers that are listed for an output, and its own, are below a bound. -/
structure Unfolding.Below (bound : Nat) (u : Unfolding) : Prop where
  index : u.index < bound
  entries : ∀ e ∈ u.entries, ∀ i ∈ e.indices, i < bound

/-- The filesystems of a site have only numbers below a bound. -/
structure Site.Below (bound : Nat) (site : Site) : Prop where
  root : site.root.Below bound
  workspace : site.workspace.Below bound

theorem Site.mem_inputs {site : Site} {mode : WorkspaceMode} {w : Unfolding} (h : w ∈ site.inputs mode) :
    w = site.root ∨ w = site.workspace := by
  cases mode with
  | readWrite => simpa [inputs] using h
  | readOnly => simpa [inputs] using h
  | none => exact .inl (List.mem_singleton.1 h)

section

variable {bound : Nat}

theorem Unfolding.Below.node {op : Op} {index : Nat} {inputs : List Unfolding} (hindex : index < bound)
    (hop : ∀ i ∈ op.indices, i < bound) (hinputs : ∀ w ∈ inputs, w.Below bound) :
    (Unfolding.node op index inputs).Below bound where
  index := hindex
  entries := by
    intro e he i hi
    rcases mem_entries_node.1 he with rfl | ⟨w, hw, he⟩
    · rw [entry_node] at hi
      rcases List.mem_append.1 hi with hi | hi
      · obtain ⟨r, hr, rfl⟩ := List.mem_map.1 hi
        obtain ⟨w, hw, rfl⟩ := List.mem_map.1 hr
        exact (hinputs w hw).index
      · exact hop i hi
    · exact (hinputs w hw).entries e he i hi

/-- The numbers of an overlay of some filesystems are theirs, and numbers below that of the filesystems. -/
theorem Unfolding.Overlay.below {u : Unfolding} {us : List Unfolding} (h : u.Overlay us)
    (hus : ∀ w ∈ us, w.Below bound) (hfew : us.length ≤ bound) : u.Below bound := by
  cases h with
  | single => exact hus u (List.mem_singleton_self u)
  | merge hmany hoverlays hreads hws =>
      refine .node (by omega) (fun i hi => ?_) fun w hw => hus w (hreads w hw)
      obtain ⟨w, -, hw⟩ := exists_of_mem_left hoverlays hi
      have hlt := (List.getElem?_eq_some_iff.1 hw).1
      omega

variable (hbound : 1 < bound)

include hbound

theorem EffectiveRun.indices_exec (workdir : String) (run : EffectiveRun) :
    ∀ i ∈ (Op.exec (run.exec workdir)).indices, i < bound := by
  have hsmall : ∀ i ∈ (Op.exec (run.exec workdir)).indices, i = 0 ∨ i = 1 := by
    rw [EffectiveRun.exec]
    cases run.workspace <;> simp [Op.indices, MountPoint.indices, WorkspaceMode.mountPoints]
  intro i hi
  rcases hsmall i hi with rfl | rfl
  · omega
  · exact hbound

theorem Unfolding.Below.extract {source : Unfolding} (h : source.Below bound) (path dest : String) :
    (source.extract path dest).Below bound := by
  refine .node (by omega) (fun i hi => ?_) fun w hw => List.mem_singleton.1 hw ▸ h
  obtain rfl : i = 0 := List.mem_singleton.1 hi
  omega

theorem Site.Below.output {site : Site} (h : site.Below bound) (workdir : String) (run : EffectiveRun) {index : Nat}
    (hindex : index ≤ 1) : (site.output workdir run index).Below bound := by
  refine .node (by omega) (run.indices_exec hbound workdir) fun w hw => ?_
  rcases Site.mem_inputs hw with rfl | rfl
  · exact h.root
  · exact h.workspace

theorem Site.Below.after {site : Site} (h : site.Below bound) (workdir : String) (run : EffectiveRun) :
    (site.after workdir run).Below bound where
  root := h.output hbound workdir run (Nat.zero_le 1)
  workspace := by
    by_cases hmode : run.workspace = .readWrite
    · rw [workspace_after_readWrite workdir site hmode]
      exact h.output hbound workdir run (Nat.le_refl 1)
    · rw [workspace_after_of_ne workdir site hmode]
      exact h.workspace

theorem Site.Below.afterAll {site : Site} (h : site.Below bound) (workdir : String) (runs : List EffectiveRun) :
    (site.afterAll workdir runs).Below bound := by
  induction runs generalizing site with
  | nil => exact h
  | cons run runs ih => exact ih (h.after hbound workdir run)

theorem BaseRecipe.below_start (b : BaseRecipe) : b.start.Below bound := by
  have hsource : ∀ src, (Unfolding.node (.source src) 0 []).Below bound := fun src =>
    .node (by omega) (fun _ hi => absurd hi List.not_mem_nil) fun _ hw => absurd hw List.not_mem_nil
  have hcontext : (contextTree b.context).Below bound := hsource _
  have hsystem : b.systemTree.Below bound :=
    Site.Below.output hbound ⟨hsource _, hcontext⟩ b.workdir b.system (Nat.zero_le 1)
  have hmanifest : b.manifestTree.Below bound := hcontext.extract hbound b.manifest b.manifest
  exact ⟨Site.Below.output hbound ⟨hsystem, hmanifest⟩ b.workdir b.install (Nat.zero_le 1), hcontext⟩

/-- The result of a stage has only the numbers of what it is taken from. -/
theorem StageRecipe.below_tree (r : StageRecipe) : r.tree.Below bound := by
  have hsite : (r.base.siteAfter r.runs).Below bound := (r.base.below_start hbound).afterAll hbound _ _
  have hheld : r.held.1.Below bound := by
    unfold StageRecipe.held Site.held
    split
    · exact hsite.workspace
    · exact hsite.root
  exact hheld.extract hbound r.held.2 r.exportPath

end

/-- Where there are no more stages than there are indices, all numbers of the definition are indices. -/
theorem Export.Arises.allIndices {x : Export} {c : PipelineConfig} {p : Pipeline} {g : Graph} {rs : List StageRecipe}
    {u : Unfolding} (h : x.Arises c p g rs u) (hfew : c.stages.length ≤ Codec.indexBound) :
    AllIndices x.definition.indices := by
  have hbelow : u.Below Codec.indexBound := by
    refine h.overlay.below (List.forall_mem_map.2 fun r _ => r.below_tree (by decide)) ?_
    rw [List.length_map, ← (PipelineConfig.recipe_eq_ok_iff.1 h.recipe).2.length_eq]
    exact hfew
  refine allIndices_append.2 ⟨fun i hi => ?_, ?_⟩
  · obtain ⟨e, he, hi⟩ := List.mem_flatMap.1 hi
    exact hbelow.entries e ((h.ops e).1 he) i hi
  · rw [h.root]
    exact fun i hi => List.mem_singleton.1 hi ▸ hbelow.index

/-- A compiled definition is read back from its file, in either layout. -/
theorem Export.ofBytes_toBytes_of_compile {c : PipelineConfig} {platform : Platform} {x : Export}
    (h : compile c platform = .ok x) (hfew : c.stages.length ≤ Codec.indexBound) :
    Definition.ofBytes x.definition.toBytes = .ok x.definition ∧
      Definition.ofBytes x.definition.toPrettyBytes = .ok x.definition := by
  obtain ⟨p, g, rs, u, hx⟩ := exists_arises h
  obtain ⟨hcompact, -, hpretty⟩ := (readsBack_definition (hx.allIndices hfew)).run
  exact ⟨hcompact, hpretty⟩

end BuildGraph
