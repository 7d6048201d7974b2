import BuildGraph.Proofs.Definition.Marshalable
import BuildGraph.Proofs.Op.Checks
import BuildGraph.Proofs.Path.Characters
import BuildGraph.Proofs.Pipeline.Recipe

/-!
# Configs that can be encoded

A valid config may still ask for operations that are not valid. What it has to be besides is `Encodable`: the work
directory can be a mount target, the keys of environments can be such, and the paths of the manifest, the results and
the exports have no null character in normal form. The trees of the recipes are valid just then
(`PipelineConfig.valid_trees_iff`).
-/

namespace BuildGraph

/-- An absolute path that a run can have a mount at besides its root. -/
structure Path.Mountable (path : String) : Prop where
  no_nul : '\x00' ∉ path.toList
  ne_root : Path.normalize path ≠ "/"

/-- The environments of the steps have keys that can be such, and the result can be copied. -/
structure StageConfig.Encodable (s : StageConfig) : Prop where
  env : ∀ t ∈ s.steps, ∀ key ∈ t.env.keys, Op.IsKey key
  output : '\x00' ∉ (Path.normalize s.output).toList
  exportPath : '\x00' ∉ (Path.normalize s.exportPath).toList

/-- The workspace can be mounted, the manifest can be copied, and the stages are in order. -/
structure PipelineConfig.Encodable (c : PipelineConfig) : Prop where
  workdir : Path.Mountable c.base.workdir
  manifest : '\x00' ∉ (Path.normalize ("/" ++ c.base.manifest)).toList
  stages : ∀ s ∈ c.stages, s.Encodable

namespace EffectiveRun

/-- The environment of the run has no entry that is refused. -/
def EnvFits (run : EffectiveRun) : Prop := ∀ entry ∈ run.env, Op.checkEntry entry = .ok ()

/-- The number of filesystems that a run reads. -/
theorem length_inputs (site : Site) (mode : WorkspaceMode) :
    (site.inputs mode).length = if mode = .none then 1 else 2 := by
  cases mode <;> rfl

/-- Besides the root a run has a mount if it sees the workspace. -/
theorem checkMounts_eq_ok_iff {workdir : String} (hworkdir : Path.isAbsolute workdir.toList = true)
    (mode : WorkspaceMode) :
    Op.checkMounts (if mode = .none then 1 else 2) []
        (⟨some 0, none, "/", some 0, false⟩ :: mode.mountPoints workdir) = .ok () ↔
      (mode ≠ .none → Path.Mountable workdir) := by
  have hroot : Op.checkPath "/" = .ok () := by decide
  have hnormal : Path.normalize "/" = "/" := by decide +kernel
  have hmountable : Path.Mountable workdir ↔ Op.checkPath workdir = .ok () ∧ "/" ≠ Path.normalize workdir := by
    rw [Op.checkPath_eq_ok_iff hworkdir]
    exact ⟨fun h => ⟨h.no_nul, h.ne_root.symm⟩, fun h => ⟨h.1, h.2.symm⟩⟩
  rw [Op.checkMounts_eq_ok_iff, hmountable]
  cases mode <;>
    simp [WorkspaceMode.mountPoints, Op.checkInput, Op.checkIndex, Op.checkSelector, hroot, hnormal, eq_comm]

/-- A run is valid if its environment is, its directory is, and the workspace is mounted where that can be. -/
theorem validate_exec_iff {workdir : String} (hworkdir : Path.isAbsolute workdir.toList = true) {run : EffectiveRun}
    (hprogram : hasProgram run.args = true) (site : Site) :
    (Op.exec (run.exec workdir)).validate (site.inputs run.workspace).length = .ok () ↔
      run.EnvFits ∧ '\x00' ∉ (Path.normalize workdir).toList ∧
        (run.workspace ≠ .none → Path.Mountable workdir) := by
  obtain ⟨habsolute, -⟩ := Path.normalize_normalize hworkdir
  have hjoin : Path.join "/" workdir = Path.normalize workdir := by rw [Path.join, if_pos hworkdir]
  rw [Op.validate, Op.validateExec_eq_ok_iff, EffectiveRun.exec, length_inputs, checkMounts_eq_ok_iff hworkdir,
    hjoin, Op.checkPath_eq_ok_iff habsolute, Op.checkArgs_eq_ok_iff]
  have hroot : Op.checkRoot (⟨some 0, none, "/", some 0, false⟩ :: run.workspace.mountPoints workdir) = .ok () := rfl
  simp only [hprogram, hroot, true_and, EnvFits]

end EffectiveRun

namespace Site

variable {workdir : String} {site : Site} {run : EffectiveRun}

/-- The outputs of a run are valid if the run is, and what it reads. -/
theorem valid_output_iff (hworkdir : Path.isAbsolute workdir.toList = true) (hprogram : hasProgram run.args = true)
    (index : Nat) :
    (site.output workdir run index).Valid ↔
      (run.EnvFits ∧ '\x00' ∉ (Path.normalize workdir).toList ∧ (run.workspace ≠ .none → Path.Mountable workdir)) ∧
        site.root.Valid ∧ (run.workspace ≠ .none → site.workspace.Valid) := by
  rw [output, Unfolding.valid_node_iff, EffectiveRun.validate_exec_iff hworkdir hprogram]
  cases run.workspace <;> simp [inputs]

/-- Where the workspace can be mounted, only the environment of a run can be wrong. -/
theorem valid_output_of_mountable (hworkdir : Path.isAbsolute workdir.toList = true)
    (hmount : Path.Mountable workdir) (hprogram : hasProgram run.args = true) (index : Nat) :
    (site.output workdir run index).Valid ↔
      run.EnvFits ∧ site.root.Valid ∧ (run.workspace ≠ .none → site.workspace.Valid) := by
  have hdir : '\x00' ∉ (Path.normalize workdir).toList := fun hmem =>
    hmount.no_nul (Path.mem_normalize hworkdir (by decide) hmem)
  rw [valid_output_iff hworkdir hprogram]
  simp only [hdir, hmount, not_false_eq_true, implies_true, and_true]

/-- The workspace of a site comes out of a run that has led to its root, so it is valid if the root is. -/
theorem valid_workspace_after (hworkdir : Path.isAbsolute workdir.toList = true) (hprogram : hasProgram run.args = true)
    (hsite : site.root.Valid → site.workspace.Valid) :
    (site.after workdir run).root.Valid → (site.after workdir run).workspace.Valid := by
  intro hroot
  by_cases hmode : run.workspace = .readWrite
  · rw [workspace_after_readWrite workdir site hmode, valid_output_iff hworkdir hprogram]
    exact (valid_output_iff hworkdir hprogram 0).1 hroot
  · rw [workspace_after_of_ne workdir site hmode]
    exact hsite ((valid_output_iff hworkdir hprogram 0).1 hroot).2.1

/-- What some runs lead to is valid only if what they start from is. -/
theorem valid_root_of_afterAll {runs : List EffectiveRun} (h : (site.afterAll workdir runs).root.Valid) :
    site.root.Valid := by
  induction runs generalizing site with
  | nil => exact h
  | cons run runs ih =>
      have hafter : (site.output workdir run 0).Valid := ih h
      apply (Unfolding.valid_node_iff.1 hafter).2
      cases run.workspace <;> exact List.mem_cons_self

/-- The site behind some runs is valid if the one in front is and the environments of the runs are. -/
theorem valid_afterAll_iff (hworkdir : Path.isAbsolute workdir.toList = true) (hmount : Path.Mountable workdir)
    {runs : List EffectiveRun} (hprogram : ∀ run ∈ runs, hasProgram run.args = true)
    (hsite : site.root.Valid → site.workspace.Valid) :
    (site.afterAll workdir runs).root.Valid ↔ site.root.Valid ∧ ∀ run ∈ runs, run.EnvFits := by
  induction runs generalizing site with
  | nil => simp [afterAll]
  | cons run runs ih =>
      obtain ⟨hrun, hruns⟩ := List.forall_mem_cons.1 hprogram
      have hafter : (site.output workdir run 0).Valid ↔ _ := valid_output_of_mountable hworkdir hmount hrun 0
      have hrest := ih hruns (valid_workspace_after hworkdir hrun hsite)
      have hcons : site.afterAll workdir (run :: runs) = (site.after workdir run).afterAll workdir runs := rfl
      rw [hcons, hrest, List.forall_mem_cons]
      constructor
      · rintro ⟨hroot, henvs⟩
        obtain ⟨henv, hroot, -⟩ := hafter.1 hroot
        exact ⟨hroot, henv, henvs⟩
      · rintro ⟨hroot, henv, henvs⟩
        exact ⟨hafter.2 ⟨henv, hroot, fun _ => hsite hroot⟩, henvs⟩

end Site

/-- What is copied is valid if its source is, and both paths have no null character. -/
theorem Unfolding.valid_extract_iff {source : Unfolding} {path dest : String}
    (hpath : Path.isAbsolute path.toList = true) (hdest : Path.isAbsolute dest.toList = true) :
    (source.extract path dest).Valid ↔ source.Valid ∧ '\x00' ∉ path.toList ∧ '\x00' ∉ dest.toList := by
  have hcopy : (Op.copy ⟨none, some 0, path, dest, .extract⟩).validate 1 = .ok () ↔
      '\x00' ∉ path.toList ∧ '\x00' ∉ dest.toList := by
    rw [← Op.checkPath_eq_ok_iff hpath, ← Op.checkPath_eq_ok_iff hdest]
    simp [Op.validate, Op.validateCopy, check_bind_eq_ok_iff, Op.checkInput, Op.checkIndex]
  rw [extract, valid_node_iff, List.length_singleton, hcopy, List.forall_mem_singleton, and_comm]

theorem valid_imageTree (name : String) : (imageTree name).Valid := by
  have hscheme : Op.hasScheme ("docker-image://" ++ name).toList = true := by
    rw [String.toList_append]
    rfl
  exact .node (if_pos hscheme) nofun

theorem valid_contextTree (name : String) : (contextTree name).Valid := by
  have hscheme : Op.hasScheme ("local://" ++ name).toList = true := by
    rw [String.toList_append]
    rfl
  exact .node (if_pos hscheme) nofun

/-- A command without an environment of its own has only the entry for the `PATH`. -/
theorem StepConfig.envFits_plain {line : String} {mode : WorkspaceMode} {run : EffectiveRun}
    (h : (StepConfig.plain line mode).effective = .ok run) : run.EnvFits := by
  obtain ⟨args, -, -, rfl⟩ := StepConfig.effective_eq_ok_iff.1 h
  exact (checkEntries_eq_ok_iff .empty).2 nofun

theorem StepConfig.hasProgram_of_effective {s : StepConfig} {run : EffectiveRun} (h : s.effective = .ok run) :
    hasProgram run.args = true := by
  obtain ⟨args, -, hprogram, rfl⟩ := StepConfig.effective_eq_ok_iff.1 h
  exact hprogram

theorem StepConfig.envFits_iff {s : StepConfig} {run : EffectiveRun} (h : s.effective = .ok run) :
    run.EnvFits ↔ ∀ key ∈ s.env.keys, Op.IsKey key := by
  obtain ⟨args, -, -, rfl⟩ := StepConfig.effective_eq_ok_iff.1 h
  exact checkEntries_eq_ok_iff s.env

/-- What every stage starts from is valid if the workspace can be mounted and the manifest can be copied. -/
theorem BaseConfig.valid_installTree_iff {b : BaseConfig} (hworkdir : Path.isAbsolute b.workdir.toList = true)
    {r : BaseRecipe} (hr : b.recipe = .ok r) :
    r.installTree.Valid ↔
      Path.Mountable b.workdir ∧ '\x00' ∉ (Path.normalize ("/" ++ b.manifest)).toList := by
  obtain ⟨-, hsystem, -, hinstall, -, hmanifest, hdir⟩ := BaseConfig.recipe_eq_ok_iff.1 hr
  have hmode : r.install.workspace = .readOnly := by
    obtain ⟨args, -, -, hwords⟩ := StepConfig.effective_eq_ok_iff.1 hinstall
    rw [← hwords]
    rfl
  have hmodeSystem : r.system.workspace = .none := by
    obtain ⟨args, -, -, hwords⟩ := StepConfig.effective_eq_ok_iff.1 hsystem
    rw [← hwords]
    rfl
  have habsolute : Path.isAbsolute ("/" ++ b.manifest).toList = true := by simp [Path.isAbsolute]
  obtain ⟨habsolute, -⟩ := Path.normalize_normalize habsolute
  have hprogram := StepConfig.hasProgram_of_effective hinstall
  have hprogramSystem := StepConfig.hasProgram_of_effective hsystem
  have hcopy : r.manifestTree.Valid ↔ '\x00' ∉ (Path.normalize ("/" ++ b.manifest)).toList := by
    rw [BaseRecipe.manifestTree, hmanifest, Unfolding.valid_extract_iff habsolute habsolute, and_self]
    exact and_iff_right (valid_contextTree r.context)
  rw [BaseRecipe.installTree, hdir]
  by_cases hmount : Path.Mountable b.workdir
  · have hsystemTree : r.systemTree.Valid := by
      rw [BaseRecipe.systemTree, hdir, Site.valid_output_of_mountable hworkdir hmount hprogramSystem]
      exact ⟨StepConfig.envFits_plain hsystem, valid_imageTree r.image, fun h => absurd hmodeSystem h⟩
    rw [Site.valid_output_of_mountable hworkdir hmount hprogram, hcopy]
    simp [StepConfig.envFits_plain hinstall, hsystemTree, hmode, hmount]
  · rw [Site.valid_output_iff hworkdir hprogram]
    simp [hmount, hmode]

namespace StageConfig

variable {b : BaseConfig} {s : StageConfig} {r : StageRecipe}

/-- The environments of all runs fit if those of the steps do. -/
theorem envFits_iff (hr : s.recipe b = .ok r) :
    (∀ run ∈ r.runs, run.EnvFits) ↔ ∀ t ∈ s.steps, ∀ key ∈ t.env.keys, Op.IsKey key := by
  obtain ⟨-, hruns, -, -⟩ := recipe_eq_ok_iff.1 hr
  replace hruns := mapM_eq_ok_iff.1 hruns
  constructor
  · intro henv t ht
    obtain ⟨run, hrun, heffective⟩ := exists_of_mem_left hruns (List.mem_append_right _ ht)
    exact (StepConfig.envFits_iff heffective).1 (henv run hrun)
  · intro hkeys run hrun
    obtain ⟨t, ht, heffective⟩ := exists_of_mem_right hruns hrun
    rcases List.mem_append.1 ht with ht | ht
    · obtain ⟨line, -, rfl⟩ := List.mem_map.1 ht
      exact StepConfig.envFits_plain heffective
    · exact (StepConfig.envFits_iff heffective).2 (hkeys t ht)

/-- The last run leaves its root and the workspace that it could change by the same operation. -/
theorem valid_held_iff (r : StageRecipe) : r.held.1.Valid ↔ (r.base.siteAfter r.runs).root.Valid := by
  rcases r.held_cases with hheld | ⟨before, run, rest, hruns, -, hheld⟩
  · rw [hheld]
  · rw [hheld, hruns, BaseRecipe.siteAfter_concat]
    exact Unfolding.valid_node_iff.trans Unfolding.valid_node_iff.symm

/-- Where the workspace can be mounted, a null character in the path of a result is one in what is copied. -/
theorem nul_mem_held_iff (hs : s.Valid) (hworkdir : Path.isAbsolute b.workdir.toList = true)
    (hmount : Path.Mountable b.workdir) (hr : s.recipe b = .ok r) :
    Path.isAbsolute r.held.2.toList = true ∧
      ('\x00' ∈ r.held.2.toList ↔ '\x00' ∈ (Path.normalize s.output).toList) := by
  obtain ⟨hbase, -, houtput, -⟩ := recipe_eq_ok_iff.1 hr
  obtain ⟨-, -, -, -, -, -, hdir⟩ := BaseConfig.recipe_eq_ok_iff.1 hbase
  have hstrip := Path.stripBase?_normalize hs.output b.workdir
  by_cases hinside : r.lastMode = .readWrite ∧ ∃ rest, Path.stripBase? s.output b.workdir = some rest
  · obtain ⟨hmode, rest, hrest⟩ := hinside
    have hdirNul : '\x00' ∉ (Path.normalize b.workdir).toList := fun hmem =>
      hmount.no_nul (Path.mem_normalize hworkdir (by decide) hmem)
    rw [StageRecipe.held, hmode, houtput, hdir, Site.held_readWrite _ _ (hstrip.trans hrest),
      Path.mem_normalize_of_stripBase? hs.output hworkdir hrest (by decide), or_iff_right hdirNul]
    exact ⟨(Path.normalize_of_stripBase?_eq_some hs.output hworkdir hrest).1, Iff.rfl⟩
  · have hnone : r.lastMode = .readWrite → Path.stripBase? (Path.normalize s.output) b.workdir = none := by
      intro hmode
      rw [hstrip, Option.eq_none_iff_forall_ne_some]
      exact fun rest hrest => hinside ⟨hmode, rest, hrest⟩
    rw [StageRecipe.held, houtput, hdir, Site.held_root _ _ hnone]
    exact ⟨(Path.normalize_normalize hs.output).1, Iff.rfl⟩

/-- The result of a valid stage comes about by valid operations just if the base and the stage can be encoded. -/
theorem valid_tree_iff (hs : s.Valid) (hworkdir : Path.isAbsolute b.workdir.toList = true)
    (hr : s.recipe b = .ok r) :
    r.tree.Valid ↔
      Path.Mountable b.workdir ∧ '\x00' ∉ (Path.normalize ("/" ++ b.manifest)).toList ∧ s.Encodable := by
  obtain ⟨hbase, hruns, houtput, hexport⟩ := recipe_eq_ok_iff.1 hr
  obtain ⟨-, -, -, -, -, -, hdir⟩ := BaseConfig.recipe_eq_ok_iff.1 hbase
  have hinstall := BaseConfig.valid_installTree_iff hworkdir hbase
  have hprogram : ∀ run ∈ r.runs, hasProgram run.args = true := by
    intro run hrun
    obtain ⟨t, -, heffective⟩ := exists_of_mem_right (mapM_eq_ok_iff.1 hruns) hrun
    exact StepConfig.hasProgram_of_effective heffective
  have hstart : r.base.start.root.Valid → r.base.start.workspace.Valid := fun _ => valid_contextTree r.base.context
  by_cases hmount : Path.Mountable b.workdir
  · obtain ⟨hpath, hnul⟩ := nul_mem_held_iff hs hworkdir hmount hr
    have hdest : Path.isAbsolute r.exportPath.toList = true := by
      rw [hexport]
      exact (Path.normalize_normalize hs.exportPath).1
    have hsite : (r.base.start.afterAll b.workdir r.runs).root.Valid ↔ _ :=
      Site.valid_afterAll_iff hworkdir hmount hprogram hstart
    rw [StageRecipe.tree, Unfolding.valid_extract_iff hpath hdest, valid_held_iff, BaseRecipe.siteAfter, hdir, hsite,
      envFits_iff hr, hnul, hexport]
    change (r.base.installTree.Valid ∧ _) ∧ _ ↔ _
    rw [hinstall]
    constructor
    · rintro ⟨⟨⟨-, hmanifest⟩, henv⟩, hout, hexp⟩
      exact ⟨hmount, hmanifest, henv, hout, hexp⟩
    · rintro ⟨-, hmanifest, henv, hout, hexp⟩
      exact ⟨⟨⟨hmount, hmanifest⟩, henv⟩, hout, hexp⟩
  · refine iff_of_false (fun htree => hmount ?_) fun h => hmount h.1
    have hheld := (Unfolding.valid_node_iff.1 htree).2 _ List.mem_cons_self
    exact (hinstall.1 (Site.valid_root_of_afterAll ((valid_held_iff r).1 hheld))).1

end StageConfig

/-- The results of all stages come about by valid operations just if the config can be encoded. -/
theorem PipelineConfig.valid_trees_iff {c : PipelineConfig} {rs : List StageRecipe} (hr : c.recipe = .ok rs) :
    (∀ r ∈ rs, r.tree.Valid) ↔ c.Encodable := by
  obtain ⟨hc, hrs⟩ := recipe_eq_ok_iff.1 hr
  have htree : ∀ {s r}, s ∈ c.stages → s.recipe c.base = .ok r → (r.tree.Valid ↔ _) := fun hs hr =>
    StageConfig.valid_tree_iff (hc.each _ hs) hc.workdir hr
  constructor
  · intro hvalid
    have hstage : ∀ s ∈ c.stages, Path.Mountable c.base.workdir ∧
        '\x00' ∉ (Path.normalize ("/" ++ c.base.manifest)).toList ∧ s.Encodable := by
      intro s hs
      obtain ⟨r, hr, hsr⟩ := exists_of_mem_left hrs hs
      exact (htree hs hsr).1 (hvalid r hr)
    obtain ⟨s, ss, hss⟩ := List.exists_cons_of_ne_nil hc.stages
    obtain ⟨hmount, hmanifest, -⟩ := hstage s (hss ▸ List.mem_cons_self)
    exact ⟨hmount, hmanifest, fun s hs => (hstage s hs).2.2⟩
  · rintro ⟨hmount, hmanifest, hstages⟩ r hr
    obtain ⟨s, hs, hsr⟩ := exists_of_mem_right hrs hr
    exact (htree hs hsr).2 ⟨hmount, hmanifest, hstages s hs⟩

end BuildGraph
