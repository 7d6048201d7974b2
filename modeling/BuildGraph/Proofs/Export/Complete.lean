import BuildGraph.Proofs.Definition.Root
import BuildGraph.Proofs.Export.Provenance
import BuildGraph.Proofs.Graph.Consistency
import BuildGraph.Proofs.Pipeline.Sharing

/-!
# Nothing is built in vain

What an unfolding uses is its own operation and what its inputs use (`Unfolding.Uses`). Outputs of one operation use
the same, so for a result that is taken out of a mount it does not matter that the output at the root of its run is
not read: the run is used. Each run of a stage reads the filesystem that the one in front has left, hence the result
of a stage uses everything that the stage has added to the graph (`StageRecipe.uses`), and the overlay of all results
uses what the results do.

The graph of a config that has been assembled has no other vertices, and the merge adds at most its own. So the
output that is exported needs every vertex there is, and the definition is the whole graph (`needs_of_export`).
-/

namespace BuildGraph

namespace Unfolding

/-- The output 0 of the operation that an unfolding is an output of. -/
def first : Unfolding → Unfolding
  | node op _ inputs => node op 0 inputs

/-- The operation of an unfolding, given by its output 0, and the operations that its inputs use. -/
inductive Uses : Unfolding → Unfolding → Prop
  | self (u : Unfolding) : Uses u u.first
  | input {op : Op} {index : Nat} {inputs : List Unfolding} {u w : Unfolding} (hu : u ∈ inputs) (h : Uses u w) :
      Uses (.node op index inputs) w

/-- All outputs of an operation use the same. -/
theorem uses_first_iff {u w : Unfolding} : u.first.Uses w ↔ u.Uses w := by
  obtain ⟨op, index, inputs⟩ := u
  constructor
  · intro h
    cases h with
    | self => exact .self (.node op index inputs)
    | input hu h => exact .input hu h
  · intro h
    cases h with
    | self => exact .self (.node op 0 inputs)
    | input hu h => exact .input hu h

/-- What is copied out of a filesystem uses what the filesystem does. -/
theorem Uses.extract {u w : Unfolding} (h : u.Uses w) (path dest : String) : (u.extract path dest).Uses w :=
  .input (List.mem_singleton_self u) h

/-- An overlay uses what any of the filesystems does. -/
theorem Overlay.uses {u w : Unfolding} {us : List Unfolding} (h : u.Overlay us) (hw : w ∈ us) {x : Unfolding}
    (hx : w.Uses x) : u.Uses x := by
  cases h with
  | single => rwa [List.mem_singleton.1 hw] at hx
  | merge _ hoverlays =>
      obtain ⟨index, -, hindex⟩ := exists_of_mem_right hoverlays hw
      exact .input (List.mem_of_getElem? hindex) hx

end Unfolding

/-- An output needs the vertices of the operations that it uses. -/
theorem Graph.needs_of_uses {g : Graph} (hg : g.Sound) {o : Output} {u w : Unfolding} (hu : g.unfold o = some u)
    (h : u.Uses w) {vertex : Nat} (hw : g.unfold (g.output vertex 0) = some w) : g.Needs o.vertex vertex := by
  induction h generalizing o with
  | self u =>
      obtain ⟨v, inputs, hv, hinputs, rfl⟩ := (unfold_eq_some_iff hg).1 hu
      have hfirst : g.unfold (g.output o.vertex 0) = some (.node v.op 0 inputs) :=
        (unfold_eq_some_iff hg).2 ⟨v, inputs, hv, hinputs, rfl⟩
      have hsame : g.output o.vertex 0 = g.output vertex 0 := unfold_inj hg rfl rfl hfirst hw
      obtain rfl : o.vertex = vertex := congrArg Output.vertex hsame
      exact .refl
  | @input op index inputs u w hmem _ ih =>
      obtain ⟨read, hv, hinputs⟩ := exists_vertex_of_unfold hg hu
      obtain ⟨i, hi, hiu⟩ := exists_of_mem_right hinputs hmem
      exact (needs_iff hv).2 (.inr ⟨i, hi, ih hiu hw⟩)

namespace Site

variable {workdir : String} {site : Site} {w : Unfolding}

/-- A run reads the root filesystem, whether it sees the workspace or not. -/
theorem root_mem_inputs (site : Site) (mode : WorkspaceMode) : site.root ∈ site.inputs mode := by
  cases mode <;> exact List.mem_cons_self

theorem uses_afterAll (h : site.root.Uses w) (runs : List EffectiveRun) : (site.afterAll workdir runs).root.Uses w := by
  induction runs generalizing site with
  | nil => exact h
  | cons run runs ih =>
      have hafter : (site.after workdir run).root.Uses w := .input (site.root_mem_inputs _) h
      exact ih hafter

/-- The filesystem that some runs lead to uses those on the way. -/
theorem uses_of_mem_stops {runs : List EffectiveRun} {stop : EffectiveRun × Site} (h : stop ∈ site.stops workdir runs) :
    (site.afterAll workdir runs).root.Uses stop.2.root := by
  induction runs generalizing site with
  | nil => cases h
  | cons run runs ih =>
      rcases List.mem_cons.1 h with rfl | h
      · exact uses_afterAll (.self (site.output workdir run 0)) runs
      · exact ih h

end Site

/-- All that the base adds to a graph serves to install the dependencies. -/
theorem BaseRecipe.uses_installTree {b : BaseRecipe} (h : b.install.workspace = .readOnly) {u : Unfolding}
    (hu : u ∈ b.trees) : b.installTree.Uses u := by
  have hsystem : ∀ w, b.systemTree.Uses w → b.installTree.Uses w := fun w hw =>
    b.installTree_eq h ▸ .input List.mem_cons_self hw
  have hmanifest : ∀ w, b.manifestTree.Uses w → b.installTree.Uses w := fun w hw =>
    b.installTree_eq h ▸ .input (List.mem_cons_of_mem _ List.mem_cons_self) hw
  simp only [trees, List.mem_cons, List.not_mem_nil, or_false] at hu
  rcases hu with rfl | rfl | rfl | rfl | rfl
  · exact hsystem _ (.input (Site.root_mem_inputs _ _) (.self (imageTree b.image)))
  · exact hsystem _ (.self b.systemTree)
  · exact hmanifest _ (Unfolding.Uses.extract (.self (contextTree b.context)) _ _)
  · exact hmanifest _ (.self b.manifestTree)
  · exact .self b.installTree

namespace StageRecipe

variable {r : StageRecipe} {w : Unfolding}

/-- The result is taken from an output of the last run, which uses the same as the output at the root. -/
theorem uses_held (h : (r.base.siteAfter r.runs).root.Uses w) : r.held.1.Uses w := by
  rcases r.held_cases with hroot | ⟨before, run, rest, hruns, -, hworkspace⟩
  · rwa [hroot]
  · rw [hruns, BaseRecipe.siteAfter_concat] at h
    rw [hworkspace]
    exact Unfolding.uses_first_iff.1 h

/-- The result of a stage uses all that the stage has added to the graph. -/
theorem uses (hinstall : r.base.install.workspace = .readOnly) {u : Unfolding} (hu : u ∈ r.trees) : r.tree.Uses u := by
  rcases List.mem_append.1 hu with hu | hu
  · have hbase : r.base.start.root.Uses u := r.base.uses_installTree hinstall hu
    exact (uses_held (Site.uses_afterAll hbase r.runs)).extract _ _
  rcases List.mem_append.1 hu with hu | hu
  · obtain ⟨stop, hstop, rfl⟩ := List.mem_map.1 hu
    exact (uses_held (Site.uses_of_mem_stops hstop)).extract _ _
  · rw [List.mem_singleton.1 hu]
    exact .self r.tree

end StageRecipe

namespace Build

/-- A merge adds no vertex but that of what comes out of it. -/
theorem vertex_eq_of_mergeStages {p : Pipeline} {merged : MergedRoot} {g g' : Graph}
    (h : (mergeStages p).run g = (.ok merged, g')) {o : Output} (ho : merged.state.output = some o) {vertex : Nat}
    (hnew : g.size ≤ vertex) (hvertex : vertex < g'.size) : vertex = o.vertex := by
  have hold : ¬vertex < g.size := Nat.not_lt.2 hnew
  obtain ⟨s, g₁, h, hdone⟩ := run_bind_eq_ok_iff.1 h
  cases hdone
  rw [run_merge] at h
  unfold acceptLayers at h
  split at h
  · obtain rfl := (Prod.mk.inj h).2
    exact absurd hvertex hold
  · obtain rfl := (Prod.mk.inj h).2
    exact absurd hvertex hold
  · obtain ⟨rfl, rfl⟩ := Graph.accept_eq_ok h
    obtain rfl := Option.some.inj ho
    rcases g.intern_cases _ with ⟨j, -, hfound⟩ | ⟨hfresh, hpushed⟩
    · rw [hfound] at hvertex
      exact absurd hvertex hold
    · rw [hpushed] at hvertex ⊢
      have hsize : (g.push _ hfresh).size = g.size + 1 := by simp [Graph.size, Graph.push]
      rw [hsize] at hvertex
      exact Nat.le_antisymm (Nat.le_of_lt_succ hvertex) hnew

/-- An export leaves the graph as the merge of the stages does, and its definition is that of their overlay. -/
theorem merged_of_exportPipeline {p : Pipeline} {platform : Platform} {g g' : Graph} {x : Export}
    (h : (exportPipeline p platform).run g = (.ok x, g')) :
    (mergeStages p).run g = (.ok x.merged, g') ∧ marshal g' x.merged.state platform = .ok x.definition := by
  obtain ⟨merged, g₁, hmerged, hrest⟩ := run_bind_eq_ok_iff.1 h
  obtain ⟨d, g₂, hmarshal, hchecked⟩ := run_bind_eq_ok_iff.1 hrest
  obtain ⟨dag, g₃, hcheck, hdone⟩ := run_bind_eq_ok_iff.1 hchecked
  obtain ⟨-, rfl⟩ := run_ofExcept_eq_ok_iff.1 hcheck
  obtain ⟨hd, rfl⟩ := Prod.mk.inj hmarshal
  cases hdone
  exact ⟨run_mapError_eq_ok_iff.1 hmerged, mapError_eq_ok_iff.1 hd⟩

/-- A config that has a definition has been assembled in an empty graph and exported from there. -/
theorem exists_export_of_compile {c : PipelineConfig} {platform : Platform} {x : Export}
    (h : BuildGraph.compile c platform = .ok x) :
    ∃ p g g', (assemble c).run (.empty ⟨0⟩) = (.ok p, g) ∧ (exportPipeline p platform).run g = (.ok x, g') := by
  obtain ⟨g', hrun⟩ : ∃ g', (compile c platform).run (.empty ⟨0⟩) = (.ok x, g') := ⟨_, Prod.ext h rfl⟩
  obtain ⟨p, g, hassembled, hexport⟩ := run_bind_eq_ok_iff.1 hrun
  exact ⟨p, g, g', run_mapError_eq_ok_iff.1 hassembled, hexport⟩

end Build

/-- The definition of an output that needs all vertices lists the whole graph. -/
theorem Graph.lists_all {g : Graph} (hg : g.Sound) {s : State} {o : Output} (hs : s.output = some o)
    {platform : Platform} {d : Definition} (hd : marshal g s platform = .ok d)
    (hneeds : ∀ vertex < g.size, g.Needs o.vertex vertex) : d.Lists g o (List.range g.size) := by
  obtain ⟨ho, -⟩ := marshal_eq_ok hg hs hd
  obtain ⟨vertices, hvertices, hsorted, hmem⟩ := reachable_eq_ok hg ho.lt_size
  have hall : vertices = List.range g.size := by
    refine List.Perm.eq_of_pairwise (fun _ _ _ _ hab hba => absurd hab (Nat.lt_asymm hba)) hsorted
      List.pairwise_lt_range ?_
    refine (List.perm_ext_iff_of_nodup (hsorted.imp fun hlt => Nat.ne_of_lt hlt) List.nodup_range).2 fun vertex => ?_
    rw [hmem, List.mem_range]
    exact ⟨fun hneed => Nat.lt_of_le_of_lt (hneed.le hg) ho.lt_size, hneeds vertex⟩
  exact hall ▸ Graph.lists_of_marshal hg hs hd hvertices

/-- A definition that lists the whole graph has its operations, in their order. -/
theorem Definition.Lists.map_op {d : Definition} {g : Graph} {o : Output} (h : d.Lists g o (List.range g.size)) :
    d.ops.map (·.op) = g.vertices.map (·.op) := by
  have hlength : d.ops.length = g.vertices.length := by
    rw [h.length_eq, List.length_range]
    rfl
  apply List.ext_getElem
  · rw [List.length_map, List.length_map, hlength]
  · intro k hk hk'
    rw [List.length_map] at hk hk'
    obtain ⟨v, hv, hop, -⟩ := h.op k k d.ops[k] (List.getElem?_range hk') (List.getElem?_eq_getElem hk)
    obtain ⟨_, rfl⟩ := List.getElem?_eq_some_iff.1 hv
    rw [List.getElem_map, List.getElem_map, hop]

namespace Build

/-- The overlay of the stages uses all that was built for one of them. -/
theorem uses_of_overlay {c : PipelineConfig} {rs : List StageRecipe} (hrs : c.recipe = .ok rs) {u : Unfolding}
    (h : u.Overlay (rs.map StageRecipe.tree)) {w : Unfolding} (hw : w ∈ rs.flatMap StageRecipe.trees) : u.Uses w := by
  obtain ⟨r, hr, hw⟩ := List.mem_flatMap.1 hw
  obtain ⟨s, -, hs⟩ := exists_of_mem_right (PipelineConfig.recipe_eq_ok_iff.1 hrs).2 hr
  have hinstall := BaseConfig.install_readOnly (StageConfig.recipe_eq_ok_iff.1 hs).1
  exact h.uses (List.mem_map_of_mem hr) (StageRecipe.uses hinstall hw)

/-- Where a config is assembled in a graph of its own, the merge of its stages needs every vertex, be it one that
was built for a stage or that of the merge itself. -/
theorem needs_of_mergeStages {c : PipelineConfig} {id : GraphId} {p : Pipeline} {g g' : Graph} {merged : MergedRoot}
    (hp : (assemble c).run (.empty id) = (.ok p, g)) (hmerged : (mergeStages p).run g = (.ok merged, g')) :
    ∃ o rs, merged.state.output = some o ∧ c.recipe = .ok rs ∧ g'.Sound ∧
      (∀ vertex < g'.size, g'.Needs o.vertex vertex) ∧
      ∀ u ∈ rs.flatMap StageRecipe.trees, ∃ vertex,
        g'.unfold (g'.output vertex 0) = some u ∧ g'.Needs o.vertex vertex := by
  have hempty := Graph.sound_empty id
  obtain ⟨rs, merged', g₁, u, hrs, hg, -, hrun, hg', ⟨o, ho, hshows⟩, hoverlay⟩ :=
    exists_overlay_of_assemble hempty hp
  obtain ⟨hsame, rfl⟩ := Prod.mk.inj (hrun.symm.trans hmerged)
  rw [Except.ok.inj hsame] at ho
  obtain ⟨histories, hrecord, -⟩ := run_assemble_eq_ok_iff.1 hp
  obtain ⟨rs', hrs', -, -, -, hdraws⟩ := (follows_recordAll hempty c).of_run_eq_ok hrecord
  obtain rfl := Except.ok.inj (hrs.symm.trans hrs')
  have hgrows : g.GrowsTo g₁ := by
    have hnext : g₁ = (Call.merge p.states).next g := by rw [← snd_run_mergeStages, hmerged]
    exact hnext ▸ Call.growsTo_next (.merge p.states) g
  -- a vertex from before the merge is still what it was, and the overlay uses it
  have hneeds : ∀ vertex < g.size, ∀ w ∈ rs.flatMap StageRecipe.trees, g.unfold (g.output vertex 0) = some w →
      g₁.unfold (g₁.output vertex 0) = some w ∧ g₁.Needs o.vertex vertex := by
    intro vertex hvertex w hw hunfold
    rw [← hgrows.unfold_eq hg hg' _ hvertex, Graph.output, ← hgrows.id] at hunfold
    exact ⟨hunfold, Graph.needs_of_uses hg' hshows.unfold (uses_of_overlay hrs hoverlay hw) hunfold⟩
  refine ⟨o, rs, ho, hrs, hg', fun vertex hvertex => ?_, fun w hw => ?_⟩
  · by_cases hlt : vertex < g.size
    · obtain ⟨w, hw, hunfold⟩ := hdraws.new vertex hlt (Nat.zero_le _)
      exact (hneeds vertex hlt w hw hunfold).2
    · rw [vertex_eq_of_mergeStages hmerged ho (Nat.le_of_not_lt hlt) hvertex]
      exact .refl
  · obtain ⟨vertex, hlt, hunfold⟩ := hdraws.shown w hw
    exact ⟨vertex, hneeds vertex hlt w hw hunfold⟩

end Build

/-- Nothing of what a config has come to in a graph of its own is left out of its definition: the exported output needs
every vertex, so the definition lists all of them in the order in which they were added, and its root reaches all
operations. In particular that holds of what each stage adds to the graph: the sources, the installations, the copy
of the manifest, the runs, and the copy of the result. -/
theorem needs_of_export {c : PipelineConfig} {id : GraphId} {p : Pipeline} {platform : Platform} {g g' : Graph}
    {x : Export} (hp : (Build.assemble c).run (.empty id) = (.ok p, g))
    (hx : (Build.exportPipeline p platform).run g = (.ok x, g')) :
    ∃ o rs, x.merged.state.output = some o ∧ c.recipe = .ok rs ∧ (∀ vertex < g'.size, g'.Needs o.vertex vertex) ∧
      (∀ u ∈ rs.flatMap StageRecipe.trees, ∃ vertex,
        g'.unfold (g'.output vertex 0) = some u ∧ g'.Needs o.vertex vertex) ∧
      x.definition.Lists g' o (List.range g'.size) ∧
      x.definition.ops.map (·.op) = g'.vertices.map (·.op) ∧ ∀ e ∈ x.definition.ops, x.definition.Reaches e := by
  obtain ⟨hmerged, hmarshal⟩ := Build.merged_of_exportPipeline hx
  obtain ⟨o, rs, ho, hrs, hg', hneeds, hbuilt⟩ := Build.needs_of_mergeStages hp hmerged
  have hlists := Graph.lists_all hg' ho hmarshal hneeds
  exact ⟨o, rs, ho, hrs, hneeds, hbuilt, hlists, hlists.map_op, hlists.reaches⟩

/-- Two stages with the same result, taken out of the workspace, so nothing reads the root filesystem of their run. -/
theorem needs_of_export_doubled :
    ∃ p g x g' o, (Build.assemble doubledConfig).run (.empty ⟨0⟩) = (.ok p, g) ∧
      (Build.exportPipeline p .target).run g = (.ok x, g') ∧ x.merged.state.output = some o ∧
      (∀ vertex < g'.size, g'.Needs o.vertex vertex) ∧ x.definition.ops.length = g'.size := by
  obtain ⟨x, hx⟩ := compile_doubled
  obtain ⟨p, g, g', hp, hexport⟩ := Build.exists_export_of_compile hx
  obtain ⟨o, rs, ho, -, hneeds, -, hlists, -⟩ := needs_of_export hp hexport
  exact ⟨p, g, x, g', o, hp, hexport, ho, hneeds, hlists.length_eq.trans List.length_range⟩

end BuildGraph
