import BuildGraph.Proofs.Definition.Contents
import BuildGraph.Proofs.Export.Success
import BuildGraph.Proofs.Graph.Answer

/-!
# Where the layers are in the definition

The layers of a merged tree are read off the config: the names of the stages, and their export paths in normal form
(`Build.layers_of_assemble`). What a definition has for a layer is the operation whose output the stage is marshaled
to. It is a copy into the empty filesystem, to the path of the layer, and the top of the definition refers to these
copies in the order of the stages (`layers_of_compile`). Stages whose results are the same share an input of the top,
so it is the references of the top that correspond to the layers and not its inputs.
-/

namespace BuildGraph

/-- Where the result of a stage is to lie. -/
def StageConfig.layer (s : StageConfig) : Layer := ⟨Path.normalize s.exportPath, s.name⟩

namespace Build

theorem names_of_traceStage {b : BaseConfig} {s : StageConfig} {g g' : Graph} {t : StageTrace}
    (h : (traceStage b s).run g = (.ok t, g')) : t.stage.name = s.name ∧ t.stage.exportPath = s.exportPath := by
  rw [traceStage] at h
  obtain ⟨start, g₁, -, h⟩ := run_bind_eq_ok_iff.1 h
  obtain ⟨⟨context, runs⟩, g₂, -, h⟩ := run_bind_eq_ok_iff.1 h
  obtain ⟨stage, g₃, hstage, h⟩ := run_bind_eq_ok_iff.1 h
  cases h
  cases hlast : runs.getLast?.map (·.2) with
  | none =>
      rw [hlast] at hstage
      cases hstage
  | some last =>
      rw [hlast, resultOf, run_mapError_eq_ok_iff, stageResult] at hstage
      obtain ⟨state, g₄, -, h⟩ := run_bind_eq_ok_iff.1 hstage
      cases h
      exact ⟨rfl, rfl⟩

/-- The stages of an assembled config are those of the config, in their order. -/
theorem names_of_assemble {c : PipelineConfig} {g g' : Graph} {p : Pipeline} (h : (assemble c).run g = (.ok p, g')) :
    c.Valid ∧ List.Forall₂ (fun (s : StageConfig) (stage : Stage) =>
      stage.name = s.name ∧ stage.exportPath = s.exportPath) c.stages p.stages := by
  rw [assemble_eq_traceAll] at h
  obtain ⟨traces, htraces, rfl⟩ := run_map_eq_ok_iff.1 h
  rw [traceAll] at htraces
  obtain ⟨⟨⟩, g₁, hvalid, hstages⟩ := run_bind_eq_ok_iff.1 htraces
  refine ⟨PipelineConfig.validate_eq_ok_iff.1 (mapError_eq_ok_iff.1 (run_ofExcept_eq_ok_iff.1 hvalid).1), ?_⟩
  refine List.forall₂_map_right_iff.2 ((forall₂_of_run_mapM (grows_traceStage c.base) hstages).imp ?_)
  rintro s t ⟨g₂, g₃, -, hrun, -⟩
  exact names_of_traceStage hrun

theorem layers_of_assemble {c : PipelineConfig} {g g' : Graph} {p : Pipeline}
    (h : (assemble c).run g = (.ok p, g')) : p.stages.map .ofStage = c.stages.map StageConfig.layer := by
  have hlayers : List.Forall₂ (fun s stage => StageConfig.layer s = Layer.ofStage stage) c.stages p.stages := by
    refine (names_of_assemble h).2.imp ?_
    rintro s stage ⟨hname, hpath⟩
    rw [StageConfig.layer, Layer.ofStage, hname, hpath]
  have heq := List.forall₂_map_left_iff.2 (List.forall₂_map_right_iff.2 hlayers)
  rw [List.forall₂_eq_eq_eq] at heq
  exact heq.symm

theorem layers_of_mergeStages {g g' : Graph} {p : Pipeline} {m : MergedRoot}
    (h : (mergeStages p).run g = (.ok m, g')) : m.layers = p.stages.map .ofStage := by
  obtain ⟨state, g₁, -, h⟩ := run_bind_eq_ok_iff.1 h
  cases h
  rfl

/-- What is assembled can be merged, and the layers are those of the config. -/
theorem exists_layers_of_assemble {c : PipelineConfig} {g g' : Graph} (hg : g.Sound) {p : Pipeline}
    (h : (assemble c).run g = (.ok p, g')) :
    ∃ m g'', (mergeStages p).run g' = (.ok m, g'') ∧ m.layers = c.stages.map StageConfig.layer := by
  obtain ⟨-, m, g'', -, -, -, -, hm, -⟩ := exists_overlay_of_assemble hg h
  exact ⟨m, g'', hm, (layers_of_mergeStages hm).trans (layers_of_assemble h)⟩

end Build

/-- What is listed for one of the filesystems is listed for the overlay. -/
theorem Unfolding.Overlay.mem_entries {u w : Unfolding} {us : List Unfolding} (h : u.Overlay us) (hw : w ∈ us)
    {e : DefinitionOp} (he : e ∈ w.entries) : e ∈ u.entries := by
  cases h with
  | single => rwa [List.mem_singleton.1 hw] at he
  | merge hmany hoverlays =>
      obtain ⟨index, -, hindex⟩ := exists_of_mem_right hoverlays hw
      exact mem_entries_node.2 (.inr ⟨w, List.mem_of_getElem? hindex, he⟩)

/-- The operation copies something to a path of the empty filesystem. -/
def DefinitionOp.Fills (e : DefinitionOp) (path : String) : Prop :=
  ∃ input src flags, e.op = .copy ⟨none, input, src, path, flags⟩

theorem StageRecipe.fills_tree (r : StageRecipe) : r.tree.entry.Fills r.exportPath := by
  rw [StageRecipe.tree, Unfolding.extract, Unfolding.entry_node]
  exact ⟨some 0, r.held.2, .extract, rfl⟩

/-- The root of the definition is the output 0 of the operation, which is the one that its digest leads to. -/
structure Definition.HasTop (d : Definition) (e : DefinitionOp) : Prop where
  root : d.root = some ⟨e.digest, 0⟩
  rootOp : d.rootOp? = some e

/-- How a config has come to a definition: its stages were assembled in a graph, stand for the trees of their recipes
there, and are listed as an overlay of these trees. -/
structure Export.Arises (x : Export) (c : PipelineConfig) (p : Pipeline) (g : Graph) (rs : List StageRecipe)
    (u : Unfolding) : Prop where
  assembled : (Build.assemble c).run (.empty ⟨0⟩) = (.ok p, g)
  sound : g.Sound
  recipe : c.recipe = .ok rs
  stages : List.Forall₂ (fun (stage : Stage) (r : StageRecipe) => g.Stands stage.state r.tree) p.stages rs
  overlay : u.Overlay (rs.map StageRecipe.tree)
  layers : x.merged.layers = c.stages.map StageConfig.layer
  valid : u.Valid
  root : x.definition.root = some u.ref
  ops : ∀ e, e ∈ x.definition.ops ↔ e ∈ u.entries
  wellFormed : x.definition.WellFormed

namespace Export

variable {c : PipelineConfig} {platform : Platform} {x : Export}

theorem exists_arises (h : compile c platform = .ok x) : ∃ p g rs u, x.Arises c p g rs u := by
  obtain ⟨p, g, hp⟩ := Build.exists_assemble_of_compile h
  obtain ⟨rs, merged, g', u, hrs, hg, hstages, hmerged, hg', hstands, hoverlay⟩ :=
    Build.exists_overlay_of_assemble (Graph.sound_empty _) hp
  rw [Build.compile_of_merged hp hmerged] at h
  obtain ⟨d, hd, h⟩ := bind_eq_ok_iff.1 h
  obtain ⟨dag, hdag, h⟩ := bind_eq_ok_iff.1 h
  cases h
  replace hd := mapError_eq_ok_iff.1 hd
  obtain ⟨hroot, hops⟩ := marshal_of_stands hg' hstands hd
  refine ⟨p, g, rs, u, hp, hg, hrs, hstages, hoverlay, ?_, ?_, hroot, hops, ?_⟩
  · exact (Build.layers_of_mergeStages hmerged).trans (Build.layers_of_assemble hp)
  · exact (marshal_verdict hg' hstands platform).1.1 ⟨d, hd⟩
  · exact (Dag.ofDefinition_eq_ok_iff.1 (mapError_eq_ok_iff.1 hdag)).1

namespace Arises

variable {p : Pipeline} {g : Graph} {rs : List StageRecipe} {u : Unfolding}

theorem entry_mem_ops (h : x.Arises c p g rs u) {r : StageRecipe} (hr : r ∈ rs) :
    r.tree.entry ∈ x.definition.ops :=
  (h.ops _).2 (h.overlay.mem_entries (List.mem_map_of_mem hr) r.tree.entry_mem_entries)

theorem hasTop (h : x.Arises c p g rs u) (hindex : u.index = 0) : x.definition.HasTop u.entry where
  root := by rw [h.root, Unfolding.ref, hindex]
  rootOp := by
    rw [Definition.rootOp?, h.root]
    exact op?_digest h.wellFormed.ops.nodup ((h.ops _).2 u.entry_mem_entries)

/-- Each stage is marshaled to the output 0 of the copy that its recipe ends with. -/
theorem results (h : x.Arises c p g rs u) (platform : Platform) :
    List.Forall₂ (fun (stage : Stage) (r : StageRecipe) =>
      ∃ own, marshal g stage.state platform = .ok own ∧ own.root = some ⟨r.tree.entry.digest, 0⟩) p.stages rs := by
  have hvalid := List.forall_mem_map.1 (h.overlay.valid_iff.1 h.valid)
  refine (forall₂_and_right h.stages hvalid).imp ?_
  rintro stage r ⟨hstage, hr⟩
  obtain ⟨own, hown⟩ := (marshal_verdict h.sound hstage platform).1.2 hr
  exact ⟨own, hown, (marshal_of_stands h.sound hstage hown).1⟩

/-- The copies are listed, and lead to the paths of the layers. -/
theorem fills (h : x.Arises c p g rs u) :
    List.Forall₂ (fun (l : Layer) (r : StageRecipe) => r.tree.entry ∈ x.definition.ops ∧ r.tree.entry.Fills l.path)
      x.merged.layers rs := by
  rw [h.layers, List.forall₂_map_left_iff]
  refine (forall₂_and_right (PipelineConfig.recipe_eq_ok_iff.1 h.recipe).2 fun r => h.entry_mem_ops).imp ?_
  rintro s r ⟨hr, hlisted⟩
  have hpath : r.exportPath = s.layer.path := (StageConfig.recipe_eq_ok_iff.1 hr).2.2.2
  exact ⟨hlisted, hpath ▸ r.fills_tree⟩

/-- A single copy is the top. -/
theorem hasTop_single {r : StageRecipe} (h : x.Arises c p g [r] u) : x.definition.HasTop r.tree.entry := by
  cases h.overlay with
  | single => exact h.hasTop rfl
  | merge hmany => simp at hmany

/-- The references of the top lead to the copies, one by one. -/
theorem hasTop_merge (h : x.Arises c p g rs u) (hmany : 1 < rs.length) :
    ∃ top overlays, x.definition.HasTop top ∧ top.op = .merge ⟨overlays⟩ ∧
      List.Forall₂ (fun index (r : StageRecipe) => top.inputs[index]? = some ⟨r.tree.entry.digest, 0⟩ ∧
        x.definition.op? r.tree.entry.digest = some r.tree.entry) overlays rs := by
  have hoverlay := h.overlay
  generalize hus : rs.map StageRecipe.tree = us at hoverlay
  cases hoverlay with
  | single =>
      rw [← List.length_map StageRecipe.tree, hus] at hmany
      simp at hmany
  | @merge overlays ws _ _ hoverlays _ _ =>
      rw [← hus, List.forall₂_map_right_iff] at hoverlays
      have hentry := Unfolding.entry_node (.merge ⟨overlays⟩) 0 ws
      refine ⟨_, overlays, h.hasTop rfl, congrArg DefinitionOp.op hentry, ?_⟩
      refine (forall₂_and_right hoverlays fun r => h.entry_mem_ops).imp ?_
      rintro index r ⟨hindex, hr⟩
      refine ⟨?_, op?_digest h.wellFormed.ops.nodup hr⟩
      rw [hentry]
      change (ws.map Unfolding.ref)[index]? = _
      rw [List.getElem?_map, hindex]
      rfl

end Arises

end Export

/-- The layers are the stages in the order of the config. Each of them is in the definition as the output 0 of a copy
into the empty filesystem to the path of the layer, which is what the stage by itself is marshaled to. A single copy
is the top of the definition. Several copies are what the top refers to, one by one. -/
theorem layers_of_compile {c : PipelineConfig} {platform : Platform} {x : Export}
    (h : compile c platform = .ok x) :
    x.merged.layers = c.stages.map StageConfig.layer ∧
    ∃ p g copies, (Build.assemble c).run (.empty ⟨0⟩) = (.ok p, g) ∧
      List.Forall₂ (fun (stage : Stage) (e : DefinitionOp) =>
        ∃ own, marshal g stage.state platform = .ok own ∧ own.root = some ⟨e.digest, 0⟩) p.stages copies ∧
      List.Forall₂ (fun (l : Layer) (e : DefinitionOp) => e ∈ x.definition.ops ∧ e.Fills l.path)
        x.merged.layers copies ∧
      (∀ e, copies = [e] → x.definition.HasTop e) ∧
      (1 < copies.length → ∃ top overlays, x.definition.HasTop top ∧ top.op = .merge ⟨overlays⟩ ∧
        List.Forall₂ (fun index (e : DefinitionOp) =>
          top.inputs[index]? = some ⟨e.digest, 0⟩ ∧ x.definition.op? e.digest = some e) overlays copies) := by
  obtain ⟨p, g, rs, u, hx⟩ := Export.exists_arises h
  refine ⟨hx.layers, p, g, rs.map fun r => r.tree.entry, hx.assembled, ?_, ?_, ?_, ?_⟩
  · exact List.forall₂_map_right_iff.2 (hx.results platform)
  · exact List.forall₂_map_right_iff.2 hx.fills
  · intro e he
    obtain ⟨r, rfl, rfl⟩ := List.map_eq_singleton_iff.1 he
    exact hx.hasTop_single
  · intro hmany
    rw [List.length_map] at hmany
    obtain ⟨top, overlays, htop, hop, hcopies⟩ := hx.hasTop_merge hmany
    exact ⟨top, overlays, htop, hop, List.forall₂_map_right_iff.2 hcopies⟩

/-- Stages that run the same step, with their names and export paths. -/
def layeredConfig (stages : List (String × Option String)) : PipelineConfig :=
  ⟨⟨"alpine", "apk add make", "make deps", "Makefile", "/app", "src"⟩,
    stages.map fun s => ⟨s.1, [], [⟨"make", .empty, .readWrite⟩], "/app/dist", s.2⟩⟩

/-- Two stages with the same result. -/
def doubledConfig : PipelineConfig := layeredConfig [("build", none), ("again", some "/out//build/.")]

theorem compile_doubled : ∃ x, compile doubledConfig .target = .ok x := exists_eq_ok (by decide +kernel)

theorem layers_of_compile_doubled :
    ∃ x, compile doubledConfig .target = .ok x ∧
      x.merged.layers = [⟨"/out/build", "build"⟩, ⟨"/out/build", "again"⟩] ∧
      ∃ top overlays, x.definition.HasTop top ∧ top.op = .merge ⟨overlays⟩ ∧ overlays.length = 2 := by
  obtain ⟨x, hx⟩ := compile_doubled
  obtain ⟨hlayers, p, g, copies, -, -, hcopies, -, hmany⟩ := layers_of_compile hx
  have hcount : copies.length = 2 := by
    rw [← hcopies.length_eq, hlayers]
    rfl
  obtain ⟨top, overlays, htop, hop, hoverlays⟩ := hmany (by omega)
  refine ⟨x, hx, ?_, top, overlays, htop, hop, hoverlays.length_eq.trans hcount⟩
  rw [hlayers]
  decide +kernel

end BuildGraph
