import BuildGraph.Proofs.Pipeline.StepRun
import BuildGraph.Proofs.Pipeline.Valid

/-!
# Where the result of a stage comes from

The workspace as it stands after some steps is what the last step that could change it has left at the work
directory, or the directory that was handed over if there was no such step (`latestWorkspace`). A result that
lies in the work directory is copied out of the workspace as it stands at the end just if the last step could
change it. Where the last step only looks at the workspace, the copy looks below the mount: it takes the path out
of the root filesystem of that step, which is never the workspace (`copySource_stage_iff`).
-/

namespace BuildGraph

/-- The workspace after some steps of a stage: what the last one that could change it has left at the work
directory. -/
def latestWorkspace (workdir : String) (context : State) (runs : List (StepConfig × RunResult)) :
    Except GraphError State :=
  match (runs.filter fun e => e.1.workspace = .readWrite).getLast? with
  | none => .ok context
  | some e => e.2.mount workdir

/-- What a stage leaves in the graph: the directory that its workspace starts as, a run for every step, and a
copy out of what holds the result after the last of them. -/
structure StageRan (b : BaseConfig) (s : StageConfig) (g : Graph) (t : StageTrace) : Prop where
  context : ∃ o src, t.context.output = some o ∧ g.vertex? o.vertex = some ⟨.source src, []⟩
  steps : t.runs.map (·.1) = s.steps
  ran : ∀ e ∈ t.runs, StepRan b.workdir g e.1 e.2
  copied : ∀ e, t.runs.getLast? = some e → ∀ holder path, e.2.holder s.output = (holder, path) →
    ∀ o, holder.output = some o →
      g.copySource? t.stage.state = some (o, Build.resolve holder.dir path)

theorem Graph.GrowsTo.copySource? {g g' : Graph} (h : g.GrowsTo g') {s : State} {x : Output × String}
    (hs : g.copySource? s = some x) : g'.copySource? s = some x := by
  obtain ⟨o, ho, hs⟩ := Option.bind_eq_some_iff.1 hs
  obtain ⟨v, hv, hs⟩ := Option.bind_eq_some_iff.1 hs
  exact Option.bind_eq_some_iff.2 ⟨o, ho, Option.bind_eq_some_iff.2 ⟨v, h.vertex? hv, hs⟩⟩

theorem StageRan.grow {b : BaseConfig} {s : StageConfig} {g g' : Graph} {t : StageTrace}
    (h : StageRan b s g t) (hg : g.GrowsTo g') : StageRan b s g' t where
  context := by
    obtain ⟨o, src, ho, hv⟩ := h.context
    exact ⟨o, src, ho, hg.vertex? hv⟩
  steps := h.steps
  ran := fun e he => (h.ran e he).grow hg
  copied := fun e he holder path hholder o ho => hg.copySource? (h.copied e he holder path hholder o ho)

namespace Build

theorem stageRan_traceStage {b : BaseConfig} {s : StageConfig} {g g' : Graph} {t : StageTrace}
    (h : (traceStage b s).run g = (.ok t, g')) : StageRan b s g' t := by
  rw [traceStage] at h
  obtain ⟨start, g₁, -, hbehind⟩ := run_bind_eq_ok_iff.1 h
  obtain ⟨⟨context, runs⟩, g₂, hruns, hbehind⟩ := run_bind_eq_ok_iff.1 hbehind
  obtain ⟨stage, g₃, hstage, hdone⟩ := run_bind_eq_ok_iff.1 hbehind
  cases hdone
  rw [run_mapError_eq_ok_iff, traceRuns] at hruns
  obtain ⟨current, g₄, -, hbehind⟩ := run_bind_eq_ok_iff.1 hruns
  obtain ⟨context', g₅, hcontext, hbehind⟩ := run_bind_eq_ok_iff.1 hbehind
  obtain ⟨runs', g₆, hsteps, hdone⟩ := run_bind_eq_ok_iff.1 hbehind
  cases hdone
  have hgrows : g₂.GrowsTo g' := by
    have hgrows := grows_resultOf s (runs.getLast?.map (·.2)) g₂
    rwa [hstage] at hgrows
  have hgrowsRuns : g₅.GrowsTo g₂ := by
    have hgrows := grows_traceSteps b.workdir current context s.steps g₅
    rwa [hsteps] at hgrows
  obtain ⟨o, src, ho, -, hv⟩ := run_localDir_eq_ok hcontext
  obtain ⟨hmap, hran⟩ := stepRan_traceSteps hsteps
  refine ⟨⟨o, src, ho, hgrows.vertex? (hgrowsRuns.vertex? hv)⟩, hmap, fun e he => (hran e he).grow hgrows, ?_⟩
  intro e he holder path hholder o' ho'
  rw [he, Option.map_some, resultOf, run_mapError_eq_ok_iff, stageResult, hholder] at hstage
  obtain ⟨state, g₇, hcopy, hdone⟩ := run_bind_eq_ok_iff.1 hstage
  cases hdone
  exact copySource?_copy hcopy ho'

/-- An assembled config is valid, and every stage has left what a stage leaves. -/
theorem stageRan_traceAll {c : PipelineConfig} {g g' : Graph} {traces : List StageTrace}
    (h : (traceAll c).run g = (.ok traces, g')) :
    c.Valid ∧ List.Forall₂ (fun s t => StageRan c.base s g' t) c.stages traces := by
  rw [traceAll] at h
  obtain ⟨⟨⟩, g₁, hvalid, hstages⟩ := run_bind_eq_ok_iff.1 h
  obtain ⟨hvalid, -⟩ := run_ofExcept_eq_ok_iff.1 hvalid
  refine ⟨PipelineConfig.validate_eq_ok_iff.1 (mapError_eq_ok_iff.1 hvalid), ?_⟩
  refine (forall₂_of_run_mapM (grows_traceStage c.base) hstages).imp ?_
  rintro s t ⟨g₂, g₃, -, hrun, hgrows⟩
  exact (stageRan_traceStage hrun).grow hgrows

end Build

theorem latestWorkspace_of_getLast? {workdir : String} {context : State}
    {runs : List (StepConfig × RunResult)} {e : StepConfig × RunResult} (he : runs.getLast? = some e)
    (hmode : e.1.workspace = .readWrite) :
    latestWorkspace workdir context runs = e.2.mount workdir := by
  obtain ⟨before, rfl⟩ := List.getLast?_eq_some_iff.1 he
  have hlast : ([e].filter fun e => e.1.workspace = .readWrite) = [e] := by simp [hmode]
  rw [latestWorkspace, List.filter_append, hlast, List.getLast?_concat]

namespace StageRan

variable {b : BaseConfig} {s : StageConfig} {g : Graph} {t : StageTrace} {last : StepConfig}
  {r : RunResult}

/-- The workspace is the directory that was handed over, or output 1 of a run. -/
theorem latestWorkspace_eq (h : StageRan b s g t) :
    ∃ w o, latestWorkspace b.workdir t.context t.runs = .ok w ∧ w.output = some o ∧
      ((∃ src, g.vertex? o.vertex = some ⟨.source src, []⟩) ∨ o.index = 1) := by
  unfold latestWorkspace
  split
  · obtain ⟨o, src, ho, hv⟩ := h.context
    exact ⟨t.context, o, rfl, ho, .inl ⟨src, hv⟩⟩
  · rename_i e he
    obtain ⟨hmem, hmode⟩ := List.mem_filter.1 (List.mem_of_getLast? he)
    have hmount := (h.ran e hmem).mount_readWrite (of_decide_eq_true hmode)
    exact ⟨e.2.output 1, _, hmount, rfl, .inr rfl⟩

/-- The root filesystem of a run is not the workspace. -/
theorem root_ne_workspace (h : StageRan b s g t) {e : StepConfig × RunResult} (he : e ∈ t.runs) {o : Output}
    (ho : (∃ src, g.vertex? o.vertex = some ⟨.source src, []⟩) ∨ o.index = 1) :
    (⟨e.2.graph, e.2.vertex, 0⟩ : Output) ≠ o := by
  rintro rfl
  rcases ho with ⟨src, hsource⟩ | hindex
  · obtain ⟨x, inputs, hexec⟩ := (h.ran e he).vertex
    rw [hexec] at hsource
    cases hsource
  · cases hindex

/-- The result is copied out of the workspace if the last step could change it. -/
theorem copySource_readWrite (h : StageRan b s g t) (hlast : t.runs.getLast? = some (last, r))
    (hmode : last.workspace = .readWrite) (hworkdir : Path.isAbsolute b.workdir.toList = true)
    (houtput : Path.isAbsolute s.output.toList = true) {rest : String}
    (hrest : Path.stripBase? s.output b.workdir = some rest) :
    latestWorkspace b.workdir t.context t.runs = .ok (r.output 1) ∧
      g.copySource? t.stage.state = some (⟨r.graph, r.vertex, 1⟩, rest) := by
  have hran := h.ran _ (List.mem_of_getLast? hlast)
  obtain ⟨habsolute, hnormal⟩ := Path.normalize_of_stripBase?_eq_some houtput hworkdir hrest
  have hcopied := h.copied _ hlast _ _ (hran.holder_readWrite hmode hrest) _ rfl
  rw [Build.resolve_of_normal habsolute hnormal] at hcopied
  exact ⟨(latestWorkspace_of_getLast? hlast hmode).trans (hran.mount_readWrite hmode), hcopied⟩

/-- Where the last step only looked at the workspace, the result is copied out of its root filesystem. -/
theorem copySource_readOnly (h : StageRan b s g t) (hlast : t.runs.getLast? = some (last, r))
    (hmode : last.workspace = .readOnly) (houtput : Path.isAbsolute s.output.toList = true) :
    g.copySource? t.stage.state = some (⟨r.graph, r.vertex, 0⟩, Path.normalize s.output) := by
  have hran := h.ran _ (List.mem_of_getLast? hlast)
  have hcopied := h.copied _ hlast _ _ (hran.holder_readOnly hmode) _ hran.root
  have hrooted := Path.normalize_eq_rooted houtput
  have hnormal : Path.normalize (Path.normalize s.output) = Path.normalize s.output := by
    rw [hrooted, Path.normalize_rooted (Path.plain_parts houtput)]
  rwa [Build.resolve_of_normal (by rw [hrooted, Path.isAbsolute_rooted]) hnormal] at hcopied

end StageRan

/-- Where the last step of a stage sees the workspace and the result lies in the work directory, the result is
copied out of the workspace as it stands after that step, at the path relative to the work directory, just if the
step could change the workspace. If it could not, the path is taken out of the root filesystem of the step. -/
theorem copySource_stage_iff {c : PipelineConfig} {g g' : Graph} {p : Pipeline}
    (h : (Build.assemble c).run g = (.ok p, g')) :
    ∃ traces, (Build.traceAll c).run g = (.ok traces, g') ∧ p.stages = traces.map (·.stage) ∧
      List.Forall₂
        (fun s t => t.runs.map (·.1) = s.steps ∧
          ∀ last rest, s.steps.getLast? = some last → last.workspace ≠ .none →
            Path.stripBase? s.output c.base.workdir = some rest →
            ∃ r workspace o, t.runs.getLast? = some (last, r) ∧
              latestWorkspace c.base.workdir t.context t.runs = .ok workspace ∧
              workspace.output = some o ∧
              (g'.copySource? t.stage.state = some (o, rest) ↔ last.workspace = .readWrite) ∧
              (last.workspace = .readOnly →
                g'.copySource? t.stage.state = some (⟨r.graph, r.vertex, 0⟩, Path.normalize s.output)))
        c.stages traces := by
  rw [Build.assemble_eq_traceAll, ← bind_pure_comp] at h
  obtain ⟨traces, g₁, htraces, hdone⟩ := Build.run_bind_eq_ok_iff.1 h
  cases hdone
  refine ⟨traces, htraces, rfl, ?_⟩
  obtain ⟨hc, hran⟩ := Build.stageRan_traceAll htraces
  refine ((List.forall₂_and_left _ _).2 ⟨hc.each, hran⟩).imp ?_
  rintro s t ⟨hs, hstage⟩
  refine ⟨hstage.steps, fun last rest hstep hmode hrest => ?_⟩
  rw [← hstage.steps, List.getLast?_map] at hstep
  obtain ⟨⟨last, r⟩, hlast, rfl⟩ := Option.map_eq_some_iff.1 hstep
  cases hmode' : last.workspace with
  | none => exact absurd hmode' hmode
  | readWrite =>
      obtain ⟨hworkspace, hcopied⟩ :=
        hstage.copySource_readWrite hlast hmode' hc.workdir hs.output hrest
      refine ⟨r, r.output 1, _, hlast, hworkspace, rfl, ⟨fun _ => rfl, fun _ => hcopied⟩, fun h => ?_⟩
      cases h
  | readOnly =>
      obtain ⟨w, o, hw, ho, hcases⟩ := hstage.latestWorkspace_eq
      have hcopied := hstage.copySource_readOnly hlast hmode' hs.output
      refine ⟨r, w, o, hlast, hw, ho, ⟨fun h => ?_, fun h => ?_⟩, fun _ => hcopied⟩
      · have hroot := (Prod.mk.inj (Option.some.inj (hcopied.symm.trans h))).1
        exact absurd hroot (hstage.root_ne_workspace (List.mem_of_getLast? hlast) hcases)
      · cases h

theorem Build.exists_run_eq_ok {ε α : Type} {b : Build ε α} {g : Graph} (h : (b.run g).1.isOk = true) :
    ∃ x g', b.run g = (.ok x, g') := by
  obtain ⟨x, hx⟩ := exists_eq_ok h
  exact ⟨x, (b.run g).2, Prod.ext hx rfl⟩

/-- A stage that builds something in the workspace and then tests it there. -/
def testedConfig (mode : WorkspaceMode) : PipelineConfig :=
  ⟨⟨"alpine", "apk add make", "make deps", "Makefile", "/app", "src"⟩,
    [⟨"build", [], [⟨"make", .empty, .readWrite⟩, ⟨"make test", .empty, mode⟩], "/app/dist", none⟩]⟩

theorem stripBase?_tested : Path.stripBase? "/app/dist" "/app" = some "/dist" := by
  decide +kernel

theorem copySource_stage_tested :
    ∃ p g' workspace o, ∃ t : StageTrace, (Build.assemble (testedConfig .readWrite)).run (.empty ⟨0⟩) = (.ok p, g') ∧
      p.stages = [t.stage] ∧ latestWorkspace "/app" t.context t.runs = .ok workspace ∧
      workspace.output = some o ∧ g'.copySource? t.stage.state = some (o, "/dist") := by
  obtain ⟨p, g', hrun⟩ : ∃ p g', (Build.assemble (testedConfig .readWrite)).run (.empty ⟨0⟩) = (.ok p, g') :=
    Build.exists_run_eq_ok (by decide +kernel)
  obtain ⟨traces, -, hstages, hall⟩ := copySource_stage_iff hrun
  cases hall with
  | @cons _ t _ rest hstage hrest =>
      cases hrest
      obtain ⟨r, workspace, o, -, hworkspace, ho, hiff, -⟩ :=
        hstage.2 _ "/dist" rfl (by decide) stripBase?_tested
      exact ⟨p, g', workspace, o, t, hrun, hstages, hworkspace, ho, hiff.2 rfl⟩

/-- If the test only looks at the workspace, what has been built there is not what is copied. -/
theorem tested_result_not_of_workspace :
    ∃ p g' workspace o, ∃ t : StageTrace, (Build.assemble (testedConfig .readOnly)).run (.empty ⟨0⟩) = (.ok p, g') ∧
      (Build.traceAll (testedConfig .readOnly)).run (.empty ⟨0⟩) = (.ok [t], g') ∧ p.stages = [t.stage] ∧
      Path.stripBase? "/app/dist" "/app" = some "/dist" ∧
      latestWorkspace "/app" t.context t.runs = .ok workspace ∧ workspace.output = some o ∧
      g'.copySource? t.stage.state ≠ some (o, "/dist") := by
  obtain ⟨traces, g', hrun⟩ :
      ∃ traces g', (Build.traceAll (testedConfig .readOnly)).run (.empty ⟨0⟩) = (.ok traces, g') :=
    Build.exists_run_eq_ok (by decide +kernel)
  obtain ⟨hc, hall⟩ := Build.stageRan_traceAll hrun
  cases hall with
  | @cons s t _ rest hstage hrest =>
      cases hrest
      obtain ⟨w, o, hw, ho, hcases⟩ := hstage.latestWorkspace_eq
      have hassemble : (Build.assemble (testedConfig .readOnly)).run (.empty ⟨0⟩) = (.ok ⟨[t.stage]⟩, g') := by
        rw [Build.assemble_eq_traceAll, ← bind_pure_comp, Build.run_bind_eq_ok_iff]
        exact ⟨[t], g', hrun, rfl⟩
      have hstep : (t.runs.map (·.1)).getLast? = some ⟨"make test", .empty, .readOnly⟩ := by
        rw [hstage.steps]
        rfl
      rw [List.getLast?_map] at hstep
      obtain ⟨⟨last, r⟩, hlast, rfl⟩ := Option.map_eq_some_iff.1 hstep
      refine ⟨_, g', w, o, t, hassemble, hrun, rfl, stripBase?_tested, hw, ho, fun heq => ?_⟩
      have hcopied := hstage.copySource_readOnly hlast rfl (hc.each _ List.mem_cons_self).output
      have hroot := (Prod.mk.inj (Option.some.inj (hcopied.symm.trans heq))).1
      exact hstage.root_ne_workspace (List.mem_of_getLast? hlast) hcases hroot

end BuildGraph
