import BuildGraph.Proofs.Pipeline.Assembly
import BuildGraph.Proofs.Pipeline.Prefixes
import BuildGraph.Proofs.Pipeline.Workspace
import Mathlib.Data.List.Dedup
import Mathlib.Data.List.Infix

/-!
# What stages share

Every stage is built from the top, and yet what stages have in common is built once. In a graph that had nothing, two
runs are backed by one vertex just if everything that has been run up to them is the same, and the vertices can be
counted: those of the base, one for each beginning of a stage, one for each result (`Build.prefix_sharing`).
-/

namespace BuildGraph

open scoped List

/-- The effective runs of a stage, in the order in which it goes through them, and where its result is and is to be,
in normal form. -/
structure StageOutline where
  runs : List EffectiveRun
  output : String
  exportPath : String
deriving DecidableEq

def StageConfig.outline (s : StageConfig) : Except GraphError StageOutline := do
  let runs ← s.commands.mapM StepConfig.effective
  return ⟨runs, Path.normalize s.output, Path.normalize s.exportPath⟩

/-- The recipe of a stage that has the outline. -/
def StageOutline.recipe (o : StageOutline) (b : BaseRecipe) : StageRecipe := ⟨b, o.runs, o.output, o.exportPath⟩

/-- The beginnings of what some stages run, the empty one left out. -/
def runPrefixes (outlines : List StageOutline) : List (List EffectiveRun) :=
  (outlines.flatMap fun o => o.runs.inits).filter (· ≠ [])

theorem mem_runPrefixes {outlines : List StageOutline} {xs : List EffectiveRun} :
    xs ∈ runPrefixes outlines ↔ ∃ o ∈ outlines, xs <+: o.runs ∧ xs ≠ [] := by
  simp only [runPrefixes, List.mem_filter, List.mem_flatMap, List.mem_inits, decide_eq_true_eq]
  constructor
  · rintro ⟨⟨o, ho, hbegins⟩, hne⟩
    exact ⟨o, ho, hbegins, hne⟩
  · rintro ⟨o, ho, hbegins, hne⟩
    exact ⟨⟨o, ho, hbegins⟩, hne⟩

/-- The runs of a stage are execs of the graph, each with the process and the mounts of its effective run. -/
def StageHistory.Performs (g : Graph) (workdir : String) (h : StageHistory) (o : StageOutline) : Prop :=
  List.Forall₂ (fun (x : RunResult) (run : EffectiveRun) =>
    ∃ inputs, g.vertex? x.vertex = some ⟨.exec (run.exec workdir), inputs⟩) h.runs o.runs

/-- All stages of a config have the same base. -/
theorem PipelineConfig.exists_outlines {c : PipelineConfig} {rs : List StageRecipe} (hr : c.recipe = .ok rs) :
    ∃ b outlines, c.base.recipe = .ok b ∧ c.stages.mapM StageConfig.outline = .ok outlines ∧
      rs = outlines.map (StageOutline.recipe · b) := by
  obtain ⟨hc, hrs⟩ := recipe_eq_ok_iff.1 hr
  obtain ⟨s, ss, hss⟩ := List.exists_cons_of_ne_nil hc.stages
  obtain ⟨r, -, hsr⟩ := exists_of_mem_left hrs (hss ▸ List.mem_cons_self (a := s) (l := ss))
  obtain ⟨hb, -⟩ := StageConfig.recipe_eq_ok_iff.1 hsr
  refine ⟨r.base, rs.map fun r => ⟨r.runs, r.output, r.exportPath⟩, hb, ?_, ?_⟩
  · rw [mapM_eq_ok_iff, List.forall₂_map_right_iff]
    refine hrs.imp fun s r hsr => ?_
    obtain ⟨-, hruns, houtput, hexport⟩ := StageConfig.recipe_eq_ok_iff.1 hsr
    rw [StageConfig.outline, hruns, houtput, hexport]
    rfl
  · rw [List.map_map]
    refine (List.map_id rs).symm.trans (List.map_congr_left fun r' hr' => ?_)
    obtain ⟨s', -, hsr'⟩ := exists_of_mem_right hrs hr'
    obtain ⟨hb', -⟩ := StageConfig.recipe_eq_ok_iff.1 hsr'
    have hbase : r'.base = r.base := Except.ok.inj (hb'.symm.trans hb)
    simp [StageOutline.recipe, ← hbase]

/-- What a stage adds to a graph besides the base and its result: what each beginning of it comes to. -/
theorem StageRecipe.mem_roots_iff {r : StageRecipe} {u : Unfolding} :
    u ∈ r.stops.map (·.2.root) ↔ ∃ xs, (xs <+: r.runs ∧ xs ≠ []) ∧ (r.base.siteAfter xs).root = u := by
  rw [List.mem_map]
  constructor
  · rintro ⟨stop, hstop, rfl⟩
    obtain ⟨k, hk⟩ := List.getElem?_of_mem hstop
    rw [stops, Site.getElem?_stops] at hk
    obtain ⟨run, hrun, rfl⟩ := Option.map_eq_some_iff.1 hk
    refine ⟨r.runs.take (k + 1), ⟨List.take_prefix _ _, fun hnil => ?_⟩, rfl⟩
    rcases List.take_eq_nil_iff.1 hnil with hzero | hnil
    · cases hzero
    · rw [hnil] at hrun
      cases hrun
  · rintro ⟨xs, ⟨hbegins, hne⟩, rfl⟩
    obtain ⟨before, last, rfl⟩ := (List.eq_nil_or_concat' xs).resolve_left hne
    obtain ⟨rest, hrest⟩ := hbegins
    have hlast : r.runs[before.length]? = some last := by simp [← hrest]
    have htake : r.runs.take (before.length + 1) = before ++ [last] := by
      rw [← hrest]
      exact List.take_left' (by simp)
    have hstop : r.stops[before.length]? = some (last, r.base.siteAfter (before ++ [last])) := by
      rw [stops, Site.getElem?_stops, hlast, htake]
      rfl
    exact ⟨_, List.mem_of_getElem? hstop, rfl⟩

/-- What there is in a graph that some stages have been built into: the base, what each beginning of a stage comes
to, and the results. -/
def treesOf (b : BaseRecipe) (outlines : List StageOutline) : List Unfolding :=
  b.trees ++ ((runPrefixes outlines).dedup.map (fun xs => (b.siteAfter xs).root) ++
    outlines.dedup.map fun o => (o.recipe b).tree)

theorem mem_treesOf_iff {b : BaseRecipe} {outlines : List StageOutline} (hne : outlines ≠ []) {u : Unfolding} :
    u ∈ (outlines.map (StageOutline.recipe · b)).flatMap StageRecipe.trees ↔ u ∈ treesOf b outlines := by
  have hroots : (∃ o ∈ outlines, u ∈ (o.recipe b).stops.map (·.2.root)) ↔
      u ∈ (runPrefixes outlines).dedup.map fun xs => (b.siteAfter xs).root := by
    rw [List.mem_map]
    constructor
    · rintro ⟨o, ho, hu⟩
      obtain ⟨xs, hxs, rfl⟩ := StageRecipe.mem_roots_iff.1 hu
      exact ⟨xs, List.mem_dedup.2 (mem_runPrefixes.2 ⟨o, ho, hxs⟩), rfl⟩
    · rintro ⟨xs, hmem, rfl⟩
      obtain ⟨o, ho, hxs⟩ := mem_runPrefixes.1 (List.mem_dedup.1 hmem)
      exact ⟨o, ho, StageRecipe.mem_roots_iff.2 ⟨xs, hxs, rfl⟩⟩
  obtain ⟨o, ho⟩ := List.exists_mem_of_ne_nil outlines hne
  rw [treesOf, List.mem_append, List.mem_append, ← hroots]
  simp only [List.mem_flatMap, List.mem_map, List.mem_dedup, StageRecipe.trees, List.mem_append,
    List.mem_singleton]
  constructor
  · rintro ⟨r, ⟨o, ho, rfl⟩, hu | hu | rfl⟩
    · exact .inl hu
    · exact .inr (.inl ⟨o, ho, hu⟩)
    · exact .inr (.inr ⟨o, ho, rfl⟩)
  · rintro (hu | ⟨o, ho, hu⟩ | ⟨o, ho, rfl⟩)
    · exact ⟨_, ⟨o, ho, rfl⟩, .inl hu⟩
    · exact ⟨_, ⟨o, ho, rfl⟩, .inr (.inl hu)⟩
    · exact ⟨_, ⟨o, ho, rfl⟩, .inr (.inr rfl)⟩

/-- Nothing of that is there twice. -/
theorem nodup_treesOf {b : BaseRecipe} (hworkdir : Path.isAbsolute b.workdir.toList = true)
    {outlines : List StageOutline}
    (houtput : ∀ o ∈ outlines, Path.isAbsolute o.output.toList = true ∧ Path.normalize o.output = o.output) :
    (treesOf b outlines).Nodup := by
  have hroots : ((runPrefixes outlines).dedup.map fun xs => (b.siteAfter xs).root).Nodup :=
    (List.nodup_dedup _).map_on fun xs _ ys _ h => b.root_siteAfter_inj h
  have hresults : (outlines.dedup.map fun o => (o.recipe b).tree).Nodup := by
    refine (List.nodup_dedup _).map_on fun o ho o' ho' h => ?_
    have hrecipe : o.recipe b = o'.recipe b := StageRecipe.eq_of_tree_eq rfl hworkdir
      (houtput o (List.mem_dedup.1 ho)) (houtput o' (List.mem_dedup.1 ho')) h
    obtain ⟨-, hruns, houtput, hexport⟩ := StageRecipe.mk.inj hrecipe
    cases o
    cases o'
    subst hruns houtput hexport
    rfl
  refine b.nodup_trees.append (hroots.append hresults ?_) ?_
  · intro u hu hu'
    obtain ⟨xs, hxs, rfl⟩ := List.mem_map.1 hu
    obtain ⟨o, -, hsame⟩ := List.mem_map.1 hu'
    obtain ⟨-, -, -, hne⟩ := mem_runPrefixes.1 (List.mem_dedup.1 hxs)
    obtain ⟨before, last, rfl⟩ := (List.eq_nil_or_concat' xs).resolve_left hne
    rw [BaseRecipe.siteAfter_concat] at hsame
    exact nomatch (Unfolding.node.inj hsame).1
  · intro u hu hu'
    have hdepth := b.depth_le_of_mem_trees hu
    rcases List.mem_append.1 hu' with hu' | hu'
    · obtain ⟨xs, hxs, rfl⟩ := List.mem_map.1 hu'
      obtain ⟨-, -, -, hne⟩ := mem_runPrefixes.1 (List.mem_dedup.1 hxs)
      have hpos := List.length_pos_iff.2 hne
      rw [BaseRecipe.depth_root_siteAfter] at hdepth
      omega
    · obtain ⟨o, -, rfl⟩ := List.mem_map.1 hu'
      rw [StageRecipe.depth_tree] at hdepth
      omega

namespace StageHistory.Fits

variable {g : Graph} {h : StageHistory} {b : BaseRecipe} {o : StageOutline}

/-- The run at a position has left what the runs up to there come to. -/
theorem shows_run (hfits : h.Fits g (o.recipe b)) {k : Nat} {x : RunResult} (hx : h.runs[k]? = some x) :
    g.Shows ⟨x.graph, x.vertex, 0⟩ (b.siteAfter (o.runs.take (k + 1))).root := by
  rw [StageHistory.runs, List.getElem?_map, Option.map_eq_some_iff] at hx
  obtain ⟨e, he, rfl⟩ := hx
  obtain ⟨stop, hstop, hran⟩ := exists_of_getElem? hfits.runs he
  rw [StageRecipe.stops, Site.getElem?_stops, Option.map_eq_some_iff] at hstop
  obtain ⟨run, -, rfl⟩ := hstop
  exact hran.shows

theorem performs (hg : g.Sound) (hfits : h.Fits g (o.recipe b)) : h.Performs g b.workdir o := by
  have hmem : ∀ stop ∈ (o.recipe b).stops, stop ∈ (o.recipe b).stops := fun _ hstop => hstop
  rw [Performs, StageHistory.runs, ← Site.map_fst_stops b.workdir b.start o.runs, List.forall₂_map_left_iff,
    List.forall₂_map_right_iff]
  refine (((List.forall₂_and_left _ _).2 ⟨hmem, hfits.runs.flip⟩).imp ?_).flip
  rintro stop e ⟨hstop, hran⟩
  obtain ⟨before, hbefore⟩ := Site.exists_of_mem_stops _ _ hstop
  have hshows := hran.shows
  rw [hbefore] at hshows
  obtain ⟨v, inputs, hv, -, hnode⟩ := (Graph.unfold_eq_some_iff hg).1 hshows.unfold
  obtain ⟨hop, -, -⟩ := Unfolding.node.inj hnode
  exact ⟨v.inputs, hv.trans (congrArg (fun op => some (Vertex.mk op v.inputs)) hop.symm)⟩

/-- Two runs have the same vertex just if everything up to them is the same. -/
theorem vertex_eq_iff (hg : g.Sound) (hfits : h.Fits g (o.recipe b)) {h' : StageHistory} {o' : StageOutline}
    (hfits' : h'.Fits g (o'.recipe b)) {k k' : Nat} {x x' : RunResult} (hx : h.runs[k]? = some x)
    (hx' : h'.runs[k']? = some x') :
    x.vertex = x'.vertex ↔ o.runs.take (k + 1) = o'.runs.take (k' + 1) := by
  have hshows := hfits.shows_run hx
  have hshows' := hfits'.shows_run hx'
  have hgraph : x.graph = x'.graph := hshows.hasOutput.1.trans hshows'.hasOutput.1.symm
  have hroot := hshows.eq_iff hg hshows'
  rw [Output.mk.injEq, and_iff_right hgraph, and_iff_left rfl] at hroot
  exact hroot.trans ⟨b.root_siteAfter_inj, fun h => h ▸ rfl⟩

end StageHistory.Fits

/-- The image and the directory of the workspace are the only sources. -/
theorem countP_source_treesOf (b : BaseRecipe) (outlines : List StageOutline) :
    (treesOf b outlines).countP (·.op.kind == "source") = 2 := by
  have hbase : b.trees.countP (·.op.kind == "source") = 2 := rfl
  have hrest : ((runPrefixes outlines).dedup.map (fun xs => (b.siteAfter xs).root) ++
      outlines.dedup.map fun o => (o.recipe b).tree).countP (·.op.kind == "source") = 0 := by
    refine List.countP_eq_zero.2 fun u hu => ?_
    rcases List.mem_append.1 hu with hu | hu
    · obtain ⟨xs, -, rfl⟩ := List.mem_map.1 hu
      obtain rfl | ⟨xs, x, rfl⟩ := xs.eq_nil_or_concat'
      · exact nofun
      · rw [BaseRecipe.siteAfter_concat]
        exact nofun
    · obtain ⟨o, -, rfl⟩ := List.mem_map.1 hu
      exact nofun
  rw [treesOf, List.countP_append, hbase, hrest]

/-- The vertices of a graph that had nothing before some stages were built into it. -/
theorem Graph.Draws.perm_treesOf {id : GraphId} {g : Graph} {b : BaseRecipe} {outlines : List StageOutline}
    (hdraws : (Graph.empty id).Draws g ((outlines.map (StageOutline.recipe · b)).flatMap StageRecipe.trees))
    (hg : g.Sound) (hne : outlines ≠ []) (hworkdir : Path.isAbsolute b.workdir.toList = true)
    (houtput : ∀ o ∈ outlines, Path.isAbsolute o.output.toList = true ∧ Path.normalize o.output = o.output) :
    g.size = 5 + (runPrefixes outlines).dedup.length + outlines.dedup.length ∧
      g.vertices.countP (·.op.kind == "source") = 2 := by
  have hperm := (hdraws.congr fun _ => mem_treesOf_iff hne).perm_op hg (nodup_treesOf hworkdir houtput)
  constructor
  · have hlength := hperm.length_eq
    simp only [treesOf, BaseRecipe.trees, List.length_map, List.length_append, List.length_cons,
      List.length_nil] at hlength
    rw [Graph.size, hlength]
    omega
  · have hcount := hperm.countP_eq (·.kind == "source")
    rw [List.countP_map, List.countP_map] at hcount
    exact hcount.trans (countP_source_treesOf b outlines)

/-- Where a config has been assembled in a graph that had nothing, two runs of its stages are backed by the same vertex
just if the same has been run up to them. So the graph has the five vertices of the base, two of them sources, one
vertex for each beginning of a stage, and one for each stage that differs from the others. -/
theorem Build.prefix_sharing {c : PipelineConfig} {id : GraphId} {g : Graph} {p : Pipeline}
    (h : (assemble c).run (.empty id) = (.ok p, g)) :
    ∃ outlines histories, c.stages.mapM StageConfig.outline = .ok outlines ∧
      (recordAll c).run (.empty id) = (.ok histories, g) ∧ p.stages = histories.map (·.trace.stage) ∧
      List.Forall₂ (StageHistory.Performs g c.base.workdir) histories outlines ∧
      (∀ a ∈ histories.zip outlines, ∀ a' ∈ histories.zip outlines, ∀ k k' x x',
        a.1.runs[k]? = some x → a'.1.runs[k']? = some x' →
          (x.vertex = x'.vertex ↔ a.2.runs.take (k + 1) = a'.2.runs.take (k' + 1))) ∧
      g.size = 5 + (runPrefixes outlines).dedup.length + outlines.dedup.length ∧
      g.vertices.countP (·.op.kind == "source") = 2 := by
  obtain ⟨histories, hrun, hp⟩ := run_assemble_eq_ok_iff.1 h
  obtain ⟨rs, hrs, -, hg, hfits, hdraws⟩ := (follows_recordAll (Graph.sound_empty id) c).of_run_eq_ok hrun
  obtain ⟨b, outlines, hb, houtlines, rfl⟩ := PipelineConfig.exists_outlines hrs
  obtain ⟨hc, -⟩ := PipelineConfig.recipe_eq_ok_iff.1 hrs
  obtain ⟨-, -, -, -, -, -, hdir⟩ := BaseConfig.recipe_eq_ok_iff.1 hb
  rw [List.forall₂_map_right_iff] at hfits
  have hstages := mapM_eq_ok_iff.1 houtlines
  have hne : outlines ≠ [] := by
    rintro rfl
    exact hc.stages (List.forall₂_nil_right_iff.1 hstages)
  have houtput : ∀ o ∈ outlines, Path.isAbsolute o.output.toList = true ∧ Path.normalize o.output = o.output := by
    intro o ho
    obtain ⟨s, hs, houtline⟩ := exists_of_mem_right hstages ho
    obtain ⟨runs, -, hdone⟩ := bind_eq_ok_iff.1 houtline
    obtain rfl := Except.ok.inj hdone
    exact Path.normalize_normalize (hc.each s hs).output
  refine ⟨outlines, histories, houtlines, hrun, hp, ?_, ?_, hdraws.perm_treesOf hg hne (hdir ▸ hc.workdir) houtput⟩
  · rw [← hdir]
    exact hfits.imp fun _ _ hfit => hfit.performs hg
  · intro a ha a' ha' k k' x x' hx hx'
    obtain ⟨-, hzip⟩ := List.forall₂_iff_zip.1 hfits
    exact (hzip ha).vertex_eq_iff hg (hzip ha') hx hx'

/-- A stage that builds something, and one that tests what it has built in the same way. -/
def repeatedConfig : PipelineConfig :=
  let make : StepConfig := ⟨"make", .empty, .readWrite⟩
  ⟨⟨"alpine", "apk add make", "make deps", "Makefile", "/app", "src"⟩,
    [⟨"build", [], [make], "/app/dist", none⟩,
      ⟨"test", [], [make, ⟨"make test", .empty, .readOnly⟩], "/app/report", none⟩]⟩

def repeatedOutlines : List StageOutline :=
  let path := "PATH=" ++ defaultPath
  let make : EffectiveRun := ⟨["make"], [path], .readWrite⟩
  [⟨[make], "/app/dist", "/out/build"⟩,
    ⟨[make, ⟨["make", "test"], [path], .readOnly⟩], "/app/report", "/out/test"⟩]

/-- The first runs of both stages are one vertex, so there are nine vertices. -/
theorem Build.prefix_sharing_repeated :
    ∃ p g histories, (assemble repeatedConfig).run (.empty ⟨0⟩) = (.ok p, g) ∧
      (recordAll repeatedConfig).run (.empty ⟨0⟩) = (.ok histories, g) ∧
      List.Forall₂ (StageHistory.Performs g "/app") histories repeatedOutlines ∧
      (∀ a ∈ histories.zip repeatedOutlines, ∀ a' ∈ histories.zip repeatedOutlines, ∀ x x',
        a.1.runs[0]? = some x → a'.1.runs[0]? = some x' → x.vertex = x'.vertex) ∧
      g.size = 9 ∧ g.vertices.countP (·.op.kind == "source") = 2 := by
  obtain ⟨p, g, hrun⟩ : ∃ p g, (assemble repeatedConfig).run (.empty ⟨0⟩) = (.ok p, g) :=
    Build.exists_run_eq_ok (by decide +kernel)
  have houtlines : repeatedConfig.stages.mapM StageConfig.outline = .ok repeatedOutlines := by decide +kernel
  have hcounts : (runPrefixes repeatedOutlines).dedup.length = 2 ∧ repeatedOutlines.dedup.length = 2 := by
    decide +kernel
  have hfirst : ∀ o ∈ repeatedOutlines, ∀ o' ∈ repeatedOutlines, o.runs.take 1 = o'.runs.take 1 := by
    decide +kernel
  obtain ⟨outlines, histories, houtlines', hrecord, -, hperforms, hvertex, hsize, hsources⟩ := prefix_sharing hrun
  obtain rfl := Except.ok.inj (houtlines.symm.trans houtlines')
  rw [hcounts.1, hcounts.2] at hsize
  refine ⟨p, g, histories, hrun, hrecord, hperforms, fun a ha a' ha' x x' hx hx' => ?_, hsize, hsources⟩
  exact (hvertex a ha a' ha' 0 0 x x' hx hx').2
    (hfirst _ (List.of_mem_zip ha).2 _ (List.of_mem_zip ha').2)

end BuildGraph
