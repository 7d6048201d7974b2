import BuildGraph.Proofs.Graph.Follows
import BuildGraph.Proofs.Pipeline.History
import BuildGraph.Proofs.Pipeline.StepRun
import BuildGraph.Proofs.Pipeline.Valid

/-!
# Assembly follows recipes

`Build.assemble` does what the recipes of a config say, in whatever graph it begins. Each command of a stage follows
its effective run (`follows_command`), so the runs of a stage follow each other from site to site
(`follows_traceSteps`), and the result of the stage stands for the tree of its recipe (`follows_recordStage`).
-/

namespace BuildGraph

namespace Unfolding

/-- The root filesystem of a run. -/
def IsRunRoot (u : Unfolding) : Prop := ∃ e inputs, u = .node (.exec e) 0 inputs

end Unfolding

/-- The root filesystem has been left by a run, and the workspace is something else. -/
structure Site.Apart (site : Site) : Prop where
  root : site.root.IsRunRoot
  workspace : ¬site.workspace.IsRunRoot

theorem Site.Apart.ne {site : Site} (h : site.Apart) : site.root ≠ site.workspace := by
  intro hsame
  exact h.workspace (hsame ▸ h.root)

theorem Site.Apart.after {site : Site} (h : site.Apart) (workdir : String) (run : EffectiveRun) :
    (site.after workdir run).Apart where
  root := ⟨_, _, rfl⟩
  workspace := by
    unfold Site.after
    cases run.workspace with
    | readWrite =>
        rintro ⟨e, inputs, heq⟩
        cases (Unfolding.node.inj heq).2.1
    | readOnly => exact h.workspace
    | none => exact h.workspace

theorem Site.Apart.afterAll {site : Site} (h : site.Apart) (workdir : String) (runs : List EffectiveRun) :
    (site.afterAll workdir runs).Apart := by
  induction runs generalizing site with
  | nil => exact h
  | cons run runs ih => exact ih (h.after workdir run)

theorem apart_start (b : BaseRecipe) : b.start.Apart where
  root := ⟨_, _, rfl⟩
  workspace := by
    rintro ⟨e, inputs, heq⟩
    cases (Unfolding.node.inj heq).1

/-- The setting in which the runs of a stage take place. -/
def runSetting (workdir : String) : Setting := ⟨some (Path.join "/" workdir), .empty⟩

/-- A step has left the site of its effective run. -/
structure Ran (workdir : String) (g : Graph) (e : StepConfig × RunResult) (stop : EffectiveRun × Site) : Prop where
  step : StepRan workdir g e.1 e.2
  mode : stop.1.workspace = e.1.workspace
  root : g.Stands e.2.root stop.2.root
  setting : e.2.root.setting = runSetting workdir
  workspace : e.1.workspace = .readWrite → g.Stands (e.2.output 1) stop.2.workspace

/-- What the run has left at its root is the output 0 of its vertex. -/
theorem Ran.shows {workdir : String} {g : Graph} {e : StepConfig × RunResult} {stop : EffectiveRun × Site}
    (h : Ran workdir g e stop) : g.Shows ⟨e.2.graph, e.2.vertex, 0⟩ stop.2.root := by
  obtain ⟨o, ho, hshows⟩ := h.root
  obtain rfl := Option.some.inj (h.step.root.symm.trans ho)
  exact hshows

theorem Ran.grow {workdir : String} {g g' : Graph} (hgrows : g.GrowsTo g') (hg : g.Sound) (hg' : g'.Sound)
    {e : StepConfig × RunResult} {stop : EffectiveRun × Site} (h : Ran workdir g e stop) :
    Ran workdir g' e stop where
  step := h.step.grow hgrows
  mode := h.mode
  root := h.root.grow hgrows hg hg'
  setting := h.setting
  workspace := fun hmode => (h.workspace hmode).grow hgrows hg hg'

namespace Build

variable {g : Graph}

theorem follows_source (hg : g.Sound) (s : Source) :
    (source s).Follows g
      (fun g' st _ => g'.Stands st (.node (.source s) 0 []) ∧ st.setting = .none ∧
        g.Draws g' [.node (.source s) 0 []]) (.ok ()) := by
  refine (follows_accept hg (run_source s g) .nil Nat.one_pos ()).imp ?_
  rintro g' st - hgrows hg' ⟨-, vertex, rfl, -, hshows, hdraws⟩
  exact ⟨⟨_, rfl, hshows 0 Nat.one_pos⟩, rfl, hdraws⟩

theorem follows_image (hg : g.Sound) (reference : String) :
    (image reference).Follows g
      (fun g' s name => g'.Stands s (imageTree name) ∧ s.setting = .none ∧ g.Draws g' [imageTree name])
      ((ImageRef.normalize reference).mapError (.invalidImageRef reference)) := by
  unfold image
  cases ImageRef.normalize reference with
  | error problem => exact .error rfl
  | ok name =>
      cases follows_source hg ⟨"docker-image://" ++ name, .empty⟩ with
      | ok hrun hgrows hsound hfits => exact .ok hrun hgrows hsound hfits

theorem follows_localDir (hg : g.Sound) (name : String) :
    (localDir name).Follows g
      (fun g' s _ => g'.Stands s (contextTree name) ∧ s.setting = .none ∧ g.Draws g' [contextTree name])
      (checkLocalName name) := by
  unfold localDir checkLocalName
  cases isLocalName name with
  | false => exact .error rfl
  | true => exact follows_source hg ⟨"local://" ++ name, .ofList [(localHint, name)]⟩

theorem slot_nil {s : State} {o : Output} (ho : s.output = some o) : slot [] s = (some 0, [o]) := by
  simp only [slot, ho]
  rfl

theorem slot_singleton {s : State} {o w : Output} (hw : s.output = some w) (hne : w ≠ o) :
    slot [o] s = (some 1, [o, w]) := by
  have hnew : [o].idxOf? w = none := List.idxOf?_eq_none_iff.2 fun hmem => hne (List.mem_singleton.1 hmem)
  simp only [slot, hw, hnew]
  rfl

/-- A path is copied out of what a state stands for. -/
theorem follows_copy (hg : g.Sound) {src : State} {u : Unfolding} (hsrc : g.Stands src u) (srcPath destPath : String) :
    (copy src srcPath .scratch destPath .extract).Follows g
      (fun g' s _ =>
        g'.Stands s (u.extract (resolve src.dir srcPath) (resolve "/" destPath)) ∧
          g.Draws g' [u.extract (resolve src.dir srcPath) (resolve "/" destPath)]) (.ok ()) := by
  have hcheck : (do g.check src; g.check .scratch) = Except.ok () :=
    check_bind_eq_ok_iff.2 ⟨hsrc.check, rfl⟩
  obtain ⟨o, ho, hshows⟩ := hsrc
  have hvertex : copyVertex src srcPath .scratch destPath .extract =
      ⟨.copy ⟨none, some 0, resolve src.dir srcPath, resolve "/" destPath, .extract⟩, [o]⟩ := by
    have hscratch : slot [] .scratch = (none, []) := rfl
    simp only [copyVertex, hscratch, slot_nil ho]
    rfl
  have hrun := run_copy src srcPath .scratch destPath .extract g
  rw [hcheck, hvertex] at hrun
  refine (follows_accept hg hrun (.cons hshows .nil) Nat.one_pos ()).imp ?_
  rintro g' s - hgrows hg' ⟨-, vertex, rfl, -, hshows, hdraws⟩
  exact ⟨⟨_, rfl, hshows 0 Nat.one_pos⟩, hdraws⟩

/-- The vertex of a command has the process and the inputs of its effective run. -/
theorem runVertex_step {workdir : String} {site : Site} (hne : site.root ≠ site.workspace) {current workspace : State}
    (hcurrent : g.Stands current site.root) (hsetting : current.setting = runSetting workdir) (s : StepConfig)
    (hworkspace : s.workspace ≠ .none → g.Stands workspace site.workspace) (args : List String) :
    ∃ inputs,
      runVertex current ⟨args, stepMounts workdir workspace s.workspace, s.env, none⟩ =
        ⟨.exec ((s.withWords args).exec workdir), inputs⟩ ∧
      List.Forall₂ g.Shows inputs (site.inputs s.workspace) := by
  obtain ⟨o, ho, hroot⟩ := hcurrent
  have hdir : current.dir = Path.join "/" workdir := by rw [State.dir, hsetting]; rfl
  have henv : current.env = .empty := by rw [State.env, hsetting]; rfl
  have hmounted : s.workspace ≠ .none → ∃ w, workspace.output = some w ∧ w ≠ o ∧ g.Shows w site.workspace := by
    intro hmode
    obtain ⟨w, hw, hshows⟩ := hworkspace hmode
    refine ⟨w, hw, ?_, hshows⟩
    rintro rfl
    exact hne (Option.some.inj (hroot.unfold.symm.trans hshows.unfold))
  rw [StepConfig.withWords, ← envEntries_effectiveEnv, EffectiveRun.exec]
  cases hmode : s.workspace with
  | none =>
      refine ⟨[o], ?_, .cons hroot .nil⟩
      simp only [runVertex, slot_nil ho, hdir, henv, stepMounts, bindMounts]
      rfl
  | readWrite =>
      obtain ⟨w, hw, hwo, hshows⟩ := hmounted (by rw [hmode]; decide)
      refine ⟨[o, w], ?_, .cons hroot (.cons hshows .nil)⟩
      simp only [runVertex, slot_nil ho, slot_singleton hw hwo, hdir, henv, stepMounts, bindMounts]
      rfl
  | readOnly =>
      obtain ⟨w, hw, hwo, hshows⟩ := hmounted (by rw [hmode]; decide)
      refine ⟨[o, w], ?_, .cons hroot (.cons hshows .nil)⟩
      simp only [runVertex, slot_nil ho, slot_singleton hw hwo, hdir, henv, stepMounts, bindMounts]
      rfl

theorem outputCount_exec (workdir : String) (run : EffectiveRun) :
    (Op.exec (run.exec workdir)).outputCount = if run.workspace = .readWrite then 2 else 1 := by
  unfold EffectiveRun.exec
  cases run.workspace <;> rfl

/-- What is checked of a command besides its words. -/
theorem check_step {workdir : String} {site : Site} {current workspace : State}
    (hcurrent : g.Stands current site.root) {mode : WorkspaceMode}
    (hworkspace : mode ≠ .none → g.Stands workspace site.workspace) :
    (do
      g.check current
      (stepMounts workdir workspace mode).forM fun m => g.check m.source) = .ok () := by
  refine check_bind_eq_ok_iff.2 ⟨hcurrent.check, forM_eq_ok_iff.2 fun m hm => ?_⟩
  cases mode with
  | none => cases hm
  | readWrite =>
      rw [List.mem_singleton.1 hm]
      exact (hworkspace nofun).check
  | readOnly =>
      rw [List.mem_singleton.1 hm]
      exact (hworkspace nofun).check

/-- A process follows the effective run that has its words, and leads to the site behind it. -/
theorem follows_exec (hg : g.Sound) {workdir : String} {site : Site} (hne : site.root ≠ site.workspace)
    {current workspace : State} (hcurrent : g.Stands current site.root)
    (hsetting : current.setting = runSetting workdir) (s : StepConfig)
    (hworkspace : s.workspace ≠ .none → g.Stands workspace site.workspace) (args : List String) :
    (exec current ⟨args, stepMounts workdir workspace s.workspace, s.env, none⟩).Follows g
      (fun g' r run => Ran workdir g' (s, r) (run, site.after workdir run) ∧
        g.Draws g' [(site.after workdir run).root])
      (do checkProgram args; return s.withWords args) := by
  have hrun := run_exec current ⟨args, stepMounts workdir workspace s.workspace, s.env, none⟩ g
  cases hprogram : checkProgram args with
  | error e =>
      rw [hprogram] at hrun
      exact .error hrun
  | ok _ =>
      obtain ⟨inputs, hvertex, hus⟩ := runVertex_step hne hcurrent hsetting s hworkspace args
      have hcheck : (do
          Except.ok ()
          g.check current
          (stepMounts workdir workspace s.workspace).forM fun m => g.check m.source) = .ok () :=
        check_step hcurrent hworkspace
      rw [hprogram, hvertex, hcheck] at hrun
      have hcount := outputCount_exec workdir (s.withWords args)
      have hpos : 0 < (Op.exec ((s.withWords args).exec workdir)).outputCount := by
        rw [hcount]
        split <;> decide
      refine (follows_accept hg hrun hus hpos (s.withWords args)).imp ?_
      rintro g' r - hgrows hg' ⟨rfl, vertex, rfl, hv, hshows, hdraws⟩
      refine ⟨⟨⟨⟨_, _, hv⟩, rfl, workspace, rfl⟩, rfl, ⟨_, rfl, hshows 0 hpos⟩, hsetting, fun hmode => ?_⟩, hdraws⟩
      have hwritten : (s.withWords args).workspace = .readWrite := hmode
      rw [if_pos hwritten] at hcount
      rw [Site.workspace_after_readWrite workdir site hwritten]
      exact ⟨_, rfl, hshows 1 (hcount ▸ Nat.one_lt_two)⟩

/-- A command follows the effective run of its step. -/
theorem follows_command (hg : g.Sound) {workdir : String} {site : Site} (hne : site.root ≠ site.workspace)
    {current workspace : State} (hcurrent : g.Stands current site.root)
    (hsetting : current.setting = runSetting workdir) (s : StepConfig)
    (hworkspace : s.workspace ≠ .none → g.Stands workspace site.workspace) :
    (command current s.run (stepMounts workdir workspace s.workspace) s.env).Follows g
      (fun g' r run => Ran workdir g' (s, r) (run, site.after workdir run) ∧
        g.Draws g' [(site.after workdir run).root])
      s.effective := by
  unfold command StepConfig.effective RunOptions.ofCommand
  cases Shell.words? s.run with
  | none => exact .error rfl
  | some args => exact follows_exec hg hne hcurrent hsetting s hworkspace args

theorem follows_plainCommand (hg : g.Sound) {workdir : String} {site : Site} (hne : site.root ≠ site.workspace)
    {base : State} (hbase : g.Stands base site.root) (hsetting : base.setting = runSetting workdir) (line : String) :
    (plainCommand base line).Follows g
      (fun g' s run => g'.Stands s (site.after workdir run).root ∧ s.setting = runSetting workdir ∧
        g.Draws g' [(site.after workdir run).root])
      (StepConfig.plain line .none).effective := by
  -- the command does not see a workspace, so any state can stand in for one
  have hunseen : (StepConfig.plain line .none).workspace ≠ .none → g.Stands .scratch site.workspace := absurd rfl
  exact (follows_command hg hne hbase hsetting _ hunseen).bind_pure
    fun r run g' _ _ ⟨hran, hdraws⟩ => ⟨hran.root, hran.setting, hdraws⟩

/-- The manifest is copied from its path in normal form to the same path. -/
theorem resolve_manifestPath (b : BaseConfig) (dir : String) :
    resolve dir (manifestPath b) = Path.normalize ("/" ++ b.manifest) := by
  have habsolute : Path.isAbsolute ("/" ++ b.manifest).toList = true := by simp [Path.isAbsolute]
  obtain ⟨habsolute, hnormal⟩ := Path.normalize_normalize habsolute
  rw [manifestPath, Path.join_root, resolve_of_normal habsolute hnormal]

theorem follows_baseState (hg : g.Sound) (b : BaseConfig) :
    (baseState b).Follows g
      (fun g' s r => g'.Stands s r.installTree ∧ s.setting = runSetting r.workdir ∧ g.Draws g' r.trees)
      b.recipe := by
  unfold baseState BaseConfig.recipe
  refine (follows_image hg b.image).bind ?_
  rintro image name g₁ - hgrows₁ hg₁ ⟨himage, hsetting, hdraws₁⟩
  have hdir : (image.withDir b.workdir).setting = runSetting b.workdir := by
    rw [State.withDir, State.dir, hsetting]
    rfl
  have hbase : g₁.Stands (image.withDir b.workdir) (imageTree name) := himage
  have hne : (Site.mk (imageTree name) (contextTree b.context)).root ≠ contextTree b.context :=
    imageTree_ne_contextTree name b.context
  refine (follows_plainCommand hg₁ hne hbase hdir b.systemInstall).bind ?_
  rintro system run g₂ - hgrows₂ hg₂ ⟨hsystem, hsettingSystem, hdraws₂⟩
  refine (follows_localDir hg₂ b.context).bind ?_
  rintro context u g₃ - hgrows₃ hg₃ ⟨hcontext, hsettingContext, hdraws₃⟩
  refine (follows_copy hg₃ hcontext _ _).bind_ok ?_
  rintro manifest g₄ hgrows₄ hg₄ ⟨hmanifest, hdraws₄⟩
  rw [resolve_manifestPath, resolve_manifestPath] at hmanifest hdraws₄
  have hsystem₄ := hsystem.grow (hgrows₃.trans hgrows₄) hg₂ hg₄
  let site : Site := ⟨Site.output b.workdir ⟨imageTree name, contextTree b.context⟩ run 0,
    (contextTree b.context).extract (Path.normalize ("/" ++ b.manifest)) (Path.normalize ("/" ++ b.manifest))⟩
  have hneSite : site.root ≠ site.workspace := fun h => nomatch (Unfolding.node.inj h).1
  have hinstall := follows_command hg₄ hneSite hsystem₄ hsettingSystem
    (.plain b.dependencyInstall .readOnly) fun _ => hmanifest
  refine hinstall.bind ?_
  rintro r install g₅ - hgrows₅ hg₅ ⟨hran, hdraws₅⟩
  refine follows_pure hg₅ ⟨hran.root, hran.setting, ?_⟩
  have hdraws := (((hdraws₁.trans hdraws₂ hg₁ hg₂).trans hdraws₃ hg₂ hg₃).trans hdraws₄ hg₃ hg₄).trans hdraws₅ hg₄ hg₅
  exact hdraws

/-- The workspace behind a step is that of the site behind it, if the one in front was that of the site in front or
the step has left another one. -/
theorem nextWorkspace_of_ran {workdir : String} {site : Site} {s : StepConfig} {r : RunResult} {run : EffectiveRun}
    (h : Ran workdir g (s, r) (run, site.after workdir run)) {workspace : State} {p : Prop}
    (hworkspace : p → g.Stands workspace site.workspace) :
    ∃ next, nextWorkspace workdir workspace r s.workspace = .ok next ∧
      (p → g.Stands next (site.after workdir run).workspace) := by
  have hmode : run.workspace = s.workspace := h.mode
  cases hs : s.workspace with
  | readWrite => exact ⟨_, h.step.mount_readWrite hs, fun _ => h.workspace hs⟩
  | readOnly =>
      rw [Site.workspace_after_of_ne workdir site (by rw [hmode, hs]; nofun)]
      exact ⟨workspace, rfl, hworkspace⟩
  | none =>
      rw [Site.workspace_after_of_ne workdir site (by rw [hmode, hs]; nofun)]
      exact ⟨workspace, rfl, hworkspace⟩

/-- Some steps follow their effective runs, from site to site. The workspace matters only if one of them sees it. -/
theorem follows_traceSteps (hg : g.Sound) {workdir : String} {site : Site} (hsite : site.Apart)
    {current workspace : State} (hcurrent : g.Stands current site.root)
    (hsetting : current.setting = runSetting workdir) (ss : List StepConfig)
    (hworkspace : (∃ s ∈ ss, s.workspace ≠ .none) → g.Stands workspace site.workspace) :
    (traceSteps workdir current workspace ss).Follows g
      (fun g' es runs => es.map (·.1) = ss ∧ List.Forall₂ (Ran workdir g') es (site.stops workdir runs) ∧
        g.Draws g' ((site.stops workdir runs).map (·.2.root)))
      (ss.mapM StepConfig.effective) := by
  induction ss generalizing g site current workspace with
  | nil => exact follows_pure hg ⟨rfl, .nil, .refl g⟩
  | cons s ss ih =>
      rw [traceSteps, List.mapM_cons]
      have hcommand := follows_command hg hsite.ne hcurrent hsetting s fun hs =>
        hworkspace ⟨s, List.mem_cons_self, hs⟩
      refine hcommand.bind ?_
      rintro r run g₁ - hgrows₁ hg₁ ⟨hran, hdraws₁⟩
      have hworkspace₁ : (∃ t ∈ ss, t.workspace ≠ .none) → g₁.Stands workspace site.workspace := by
        rintro ⟨t, ht, htmode⟩
        exact (hworkspace ⟨t, List.mem_cons_of_mem _ ht, htmode⟩).grow hgrows₁ hg hg₁
      obtain ⟨next, hnext, hworkspace₂⟩ := nextWorkspace_of_ran hran hworkspace₁
      rw [hnext]
      have hrest := ih hg₁ (hsite.after workdir run) hran.root hran.setting hworkspace₂
      refine (follows_ofExcept hg₁ (.ok next)).bind_ok ?_
      rintro next' g₂ - - ⟨hg₂, hnext'⟩
      rw [hg₂, hnext']
      refine hrest.bind ?_
      rintro es runs g₃ - hgrows₃ hg₃ ⟨hss, hes, hdraws₃⟩
      refine follows_pure hg₃ ⟨congrArg (s :: ·) hss, .cons (hran.grow hgrows₃ hg₁ hg₃) hes, ?_⟩
      exact hdraws₁.trans hdraws₃ hg₁ hg₃

/-- The filesystem that some runs lead to is that of the site behind them. -/
theorem lastRoot_of_ran {workdir : String} {site : Site} {es : List (StepConfig × RunResult)}
    {runs : List EffectiveRun} (h : List.Forall₂ (Ran workdir g) es (site.stops workdir runs)) {start : State}
    (hstart : g.Stands start site.root) (hsetting : start.setting = runSetting workdir) :
    g.Stands (lastRoot start es) (site.afterAll workdir runs).root ∧
      (lastRoot start es).setting = runSetting workdir := by
  induction runs generalizing es site start with
  | nil =>
      cases h
      exact ⟨hstart, hsetting⟩
  | cons run runs ih =>
      cases h with
      | @cons e _ es _ hran hrest =>
          have hlast : lastRoot start (e :: es) = lastRoot e.2.root es := by
            rw [lastRoot, lastRoot, List.getLast?_cons]
            cases es.getLast? <;> rfl
          rw [hlast]
          exact ih hrest hran.root hran.setting

/-- The setup and the steps of a stage follow its effective runs. -/
theorem follows_recordRuns (hg : g.Sound) {b : BaseConfig} {r : BaseRecipe} (hb : b.recipe = .ok r) {start : State}
    (hstart : g.Stands start r.installTree) (hsetting : start.setting = runSetting r.workdir) (s : StageConfig) :
    (recordRuns b s start).Follows g
      (fun g' h runs => h.2.2.map (·.1) = s.steps ∧
        List.Forall₂ (Ran r.workdir g') (h.1 ++ h.2.2) (r.start.stops r.workdir runs) ∧
        g.Draws g' (contextTree r.context :: (r.start.stops r.workdir runs).map (·.2.root)))
      (s.commands.mapM StepConfig.effective) := by
  obtain ⟨-, -, hname, -, hcontext, -, hworkdir⟩ := BaseConfig.recipe_eq_ok_iff.1 hb
  rw [recordRuns, StageConfig.commands, List.mapM_append, ← hworkdir]
  have hsite := apart_start r
  have hunseen : (∃ t ∈ s.setup.map (StepConfig.plain · .none), t.workspace ≠ .none) →
      g.Stands .scratch r.start.workspace := by
    rintro ⟨t, ht, hmode⟩
    obtain ⟨line, -, rfl⟩ := List.mem_map.1 ht
    exact absurd rfl hmode
  refine (follows_traceSteps hg hsite hstart hsetting _ hunseen).bind ?_
  rintro setup runs g₁ hruns hgrows₁ hg₁ ⟨-, hsetup, hdraws₁⟩
  obtain ⟨hroot, hsetting⟩ := lastRoot_of_ran hsetup (hstart.grow hgrows₁ hg hg₁) hsetting
  have hworkspace : (r.start.afterAll r.workdir runs).workspace = contextTree b.context := by
    rw [Site.workspace_afterAll_of_ne, BaseRecipe.start, hcontext]
    intro run hrun
    obtain ⟨t, ht, heffective⟩ := exists_of_mem_right (mapM_eq_ok_iff.1 hruns) hrun
    obtain ⟨line, -, rfl⟩ := List.mem_map.1 ht
    obtain ⟨args, -, -, rfl⟩ := StepConfig.effective_eq_ok_iff.1 heffective
    change WorkspaceMode.none ≠ .readWrite
    decide
  have hcontextDir := follows_localDir hg₁ b.context
  rw [hname] at hcontextDir
  refine hcontextDir.bind_ok ?_
  rintro context g₂ hgrows₂ hg₂ ⟨hstands, -, hdraws₂⟩
  have hsteps := follows_traceSteps hg₂ (hsite.afterAll r.workdir runs) (hroot.grow hgrows₂ hg₁ hg₂) hsetting s.steps
    fun _ => hworkspace ▸ hstands
  refine hsteps.bind ?_
  rintro es more g₃ - hgrows₃ hg₃ ⟨hss, hes, hdraws₃⟩
  have hold := hsetup.imp fun e stop (h : Ran r.workdir g₁ e stop) =>
    h.grow (hgrows₂.trans hgrows₃) hg₁ hg₃
  refine follows_pure hg₃ ⟨hss, ?_, ?_⟩
  · rw [Site.stops_append]
    exact List.rel_append hold hes
  · rw [Site.stops_append, List.map_append]
    refine ((hdraws₁.trans hdraws₂ hg₁ hg₂).trans hdraws₃ hg₂ hg₃).congr fun u => ?_
    simp only [hcontext, List.mem_append, List.mem_cons, List.not_mem_nil, or_false]
    tauto

/-- An absolute path is resolved to its normal form. -/
theorem resolve_of_absolute {path : String} (h : Path.isAbsolute path.toList = true) (dir : String) :
    resolve dir path = Path.normalize path := by
  have hne : path ≠ "" := by
    rintro rfl
    cases h
  rw [resolve, if_neg hne, Path.join, if_pos h]

/-- A path that does not lie in a workspace which the run could change is one of the root filesystem. -/
theorem holder_root {workdir path : String} {e : StepConfig × RunResult} (h : StepRan workdir g e.1 e.2)
    (hpath : e.1.workspace = .readWrite → Path.stripBase? path workdir = none) :
    e.2.holder path = (e.2.root, Path.normalize path) := by
  obtain ⟨workspace, hmounts⟩ := h.mounts
  cases hmode : e.1.workspace with
  | none =>
      rw [hmode] at hmounts
      rw [RunResult.holder, hmounts]
      rfl
  | readOnly => exact h.holder_readOnly hmode
  | readWrite =>
      rw [hmode] at hmounts
      have hnone : MountResult.holder? path ⟨workdir, some 1⟩ = none := by
        simp [MountResult.holder?, hpath hmode]
      simp [RunResult.holder, hmounts, stepMounts, mountResults, hnone, deepest?]

/-- What holds an absolute path behind a run is what holds it at the site. -/
theorem holder_of_ran {workdir path : String} (hworkdir : Path.isAbsolute workdir.toList = true)
    (hpath : Path.isAbsolute path.toList = true) {e : StepConfig × RunResult} {stop : EffectiveRun × Site}
    (h : Ran workdir g e stop) :
    g.Stands (e.2.holder path).1 (stop.2.held workdir stop.1.workspace (Path.normalize path)).1 ∧
      resolve (e.2.holder path).1.dir (e.2.holder path).2 =
        (stop.2.held workdir stop.1.workspace (Path.normalize path)).2 := by
  have hstrip := Path.stripBase?_normalize hpath workdir
  obtain ⟨habsolute, hnormal⟩ := Path.normalize_normalize hpath
  by_cases hinside : e.1.workspace = .readWrite ∧ ∃ rest, Path.stripBase? path workdir = some rest
  · obtain ⟨hmode, rest, hrest⟩ := hinside
    obtain ⟨habsolute, hnormal⟩ := Path.normalize_of_stripBase?_eq_some hpath hworkdir hrest
    rw [h.step.holder_readWrite hmode hrest, h.mode, hmode, Site.held_readWrite _ _ (hstrip.trans hrest)]
    exact ⟨h.workspace hmode, resolve_of_normal habsolute hnormal _⟩
  · have hnone : e.1.workspace = .readWrite → Path.stripBase? path workdir = none := by
      intro hmode
      rw [Option.eq_none_iff_forall_ne_some]
      exact fun rest hrest => hinside ⟨hmode, rest, hrest⟩
    rw [holder_root h.step hnone, h.mode, Site.held_root _ _ fun hmode => hstrip.trans (hnone hmode)]
    exact ⟨h.root, resolve_of_normal habsolute hnormal _⟩

theorem follows_stageResult (hg : g.Sound) {workdir : String} (hworkdir : Path.isAbsolute workdir.toList = true)
    {s : StageConfig} (hs : s.Valid) {e : StepConfig × RunResult} {stop : EffectiveRun × Site}
    (h : Ran workdir g e stop) {held : Unfolding × String}
    (hheld : stop.2.held workdir stop.1.workspace (Path.normalize s.output) = held) :
    (stageResult s e.2).Follows g
      (fun g' stage _ => g'.Stands stage.state (held.1.extract held.2 (Path.normalize s.exportPath)) ∧
        g.Draws g' [held.1.extract held.2 (Path.normalize s.exportPath)])
      (.ok ()) := by
  subst hheld
  obtain ⟨hstands, hpath⟩ := holder_of_ran hworkdir hs.output h
  have hcopy := follows_copy hg hstands (e.2.holder s.output).2 s.exportPath
  rw [hpath, resolve_of_absolute hs.exportPath] at hcopy
  exact hcopy.bind_pure fun _ _ _ _ _ hfits => hfits

end Build

/-- The runs of a stage and its result are those of a recipe. -/
structure StageHistory.Fits (g : Graph) (h : StageHistory) (r : StageRecipe) : Prop where
  runs : List.Forall₂ (Ran r.base.workdir g) (h.setup ++ h.trace.runs) r.stops
  result : g.Stands h.trace.stage.state r.tree

theorem StageHistory.Fits.grow {g g' : Graph} (hgrows : g.GrowsTo g') (hg : g.Sound) (hg' : g'.Sound)
    {h : StageHistory} {r : StageRecipe} (hfits : h.Fits g r) : h.Fits g' r where
  runs := hfits.runs.imp fun _ _ hran => hran.grow hgrows hg hg'
  result := hfits.result.grow hgrows hg hg'

namespace Build

variable {g : Graph}

/-- A valid stage follows its recipe. -/
theorem follows_recordStage (hg : g.Sound) {b : BaseConfig} (hworkdir : Path.isAbsolute b.workdir.toList = true)
    {s : StageConfig} (hs : s.Valid) :
    (recordStage b s).Follows g (fun g' h r => h.Fits g' r ∧ g.Draws g' r.trees) (s.recipe b) := by
  unfold recordStage StageConfig.recipe
  refine ((follows_baseState hg b).mapError PipelineError.base).bind ?_
  rintro start r g₁ hr - hg₁ ⟨hstart, hsetting, hdraws₁⟩
  replace hr := mapError_eq_ok_iff.1 hr
  obtain ⟨-, -, -, -, -, -, hr'⟩ := BaseConfig.recipe_eq_ok_iff.1 hr
  rw [← hr'] at hworkdir
  refine ((follows_recordRuns hg₁ hr hstart hsetting s).mapError (PipelineError.stage s.name)).bind ?_
  rintro ⟨setup, context, es⟩ runs g₂ _ hgrows₂ hg₂ ⟨hsteps, hran, hdraws₂⟩
  obtain ⟨e, he⟩ : ∃ e, es.getLast? = some e := by
    apply Option.ne_none_iff_exists'.1
    intro hnone
    rw [List.getLast?_eq_none_iff.1 hnone] at hsteps
    exact hs.steps hsteps.symm
  have hlast : (setup ++ es).getLast? = some e := by rw [List.getLast?_append, he, Option.some_or]
  obtain ⟨stop, hstop, hlastRan⟩ := exists_of_getLast? hran hlast
  rw [Site.getLast?_stops, Option.map_eq_some_iff] at hstop
  obtain ⟨run, hrun, rfl⟩ := hstop
  have hmode :
      StageRecipe.lastMode ⟨r, runs, Path.normalize s.output, Path.normalize s.exportPath⟩ = run.workspace := by
    rw [StageRecipe.lastMode, hrun]
    rfl
  have hheld : (r.siteAfter runs).held r.workdir run.workspace (Path.normalize s.output) =
      StageRecipe.held ⟨r, runs, Path.normalize s.output, Path.normalize s.exportPath⟩ := by
    rw [StageRecipe.held, hmode]
  have hresult := (follows_stageResult hg₂ hworkdir hs hlastRan hheld).mapError (PipelineError.stage s.name)
  dsimp only
  rw [he]
  refine hresult.bind_ok ?_
  rintro stage g₃ hgrows₃ hg₃ ⟨hstage, hdraws₃⟩
  refine follows_pure hg₃ ⟨⟨hran.imp fun _ _ h => h.grow hgrows₃ hg₂ hg₃, hstage⟩, ?_⟩
  refine ((hdraws₁.trans hdraws₂ hg₁ hg₂).trans hdraws₃ hg₂ hg₃).congr fun u => ?_
  -- the directory of the workspace is among what the base adds
  have hcontext : contextTree r.context ∈ r.trees := by simp [BaseRecipe.trees]
  simp only [StageRecipe.trees, StageRecipe.stops, StageRecipe.tree, List.mem_append, List.mem_cons,
    List.not_mem_nil, or_false]
  constructor
  · rintro ((hu | rfl | hu) | hu)
    · exact .inl hu
    · exact .inl hcontext
    · exact .inr (.inl hu)
    · exact .inr (.inr hu)
  · rintro (hu | hu | hu)
    · exact .inl (.inl hu)
    · exact .inl (.inr (.inr hu))
    · exact .inr hu

theorem follows_recordAll (hg : g.Sound) (c : PipelineConfig) :
    (recordAll c).Follows g
      (fun g' hs rs => List.Forall₂ (StageHistory.Fits g') hs rs ∧ g.Draws g' (rs.flatMap StageRecipe.trees))
      c.recipe := by
  unfold recordAll PipelineConfig.recipe
  refine (follows_ofExcept hg _).bind ?_
  rintro _ _ g₁ hvalid - - ⟨hg₁, -⟩
  have hc := PipelineConfig.validate_eq_ok_iff.1 (mapError_eq_ok_iff.1 hvalid)
  rw [hg₁]
  refine follows_mapM (fun hgrows hg hg' _ _ hfits => hfits.grow hgrows hg hg') ?_ hg
  exact fun s hs g hg => follows_recordStage hg hc.workdir (hc.each s hs)

/-- What a pipeline has come to in a graph: each stage stands for the tree of its recipe. -/
theorem stands_of_assemble {c : PipelineConfig} {g g' : Graph} {p : Pipeline} (hg : g.Sound)
    (h : (assemble c).run g = (.ok p, g')) :
    g'.Sound ∧ ∃ rs, c.recipe = .ok rs ∧
      List.Forall₂ (fun (stage : Stage) (r : StageRecipe) => g'.Stands stage.state r.tree) p.stages rs := by
  obtain ⟨histories, hrun, hp⟩ := run_assemble_eq_ok_iff.1 h
  obtain ⟨rs, hrs, -, hg', hfits, -⟩ := (follows_recordAll hg c).of_run_eq_ok hrun
  refine ⟨hg', rs, hrs, ?_⟩
  rw [hp, List.forall₂_map_left_iff]
  exact hfits.imp fun _ _ hfit => hfit.result

/-- A config that has recipes can be assembled in any graph. -/
theorem exists_assemble {c : PipelineConfig} {rs : List StageRecipe} (hr : c.recipe = .ok rs) {g : Graph}
    (hg : g.Sound) : ∃ p g', (assemble c).run g = (.ok p, g') := by
  have hfollows := follows_recordAll hg c
  rw [hr] at hfollows
  obtain ⟨histories, g', hrun, -⟩ := hfollows.exists_run_eq_ok
  exact ⟨_, g', run_assemble_eq_ok_iff.2 ⟨histories, hrun, rfl⟩⟩

/-- Whether a config can be assembled does not depend on the graph. -/
theorem exists_assemble_iff (c : PipelineConfig) {g : Graph} (hg : g.Sound) :
    (∃ p g', (assemble c).run g = (.ok p, g')) ↔ ∃ rs, c.recipe = .ok rs := by
  constructor
  · rintro ⟨p, g', h⟩
    obtain ⟨-, rs, hrs, -⟩ := stands_of_assemble hg h
    exact ⟨rs, hrs⟩
  · rintro ⟨rs, hrs⟩
    exact exists_assemble hrs hg

end Build

end BuildGraph
