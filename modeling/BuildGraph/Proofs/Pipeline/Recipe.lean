import BuildGraph.Pipeline.Assemble
import BuildGraph.Proofs.Definition.Unfolding
import BuildGraph.Proofs.Graph.Variables
import BuildGraph.Proofs.Pipeline.Valid

/-!
# Recipes

What a config asks for can be said without a graph. A setup command or a step comes to an `EffectiveRun`: the words
of its line, the environment of its process, and how it sees the workspace. A `StageRecipe` has the effective runs of
a stage behind those of the base, and from that alone it follows how each filesystem of the stage comes about: a
stage stands at a `Site`, its root filesystem and its workspace, and each run leads to the next one.

A recipe fails where a graph would refuse to build the stage, with the same error.
-/

namespace BuildGraph

/-- What a setup command or a step comes to. -/
structure EffectiveRun where
  args : List String
  env : List String
  workspace : WorkspaceMode
deriving DecidableEq, Repr

/-- The effective run of a step whose line has the given words. Its variables are those of the step, and a `PATH`. -/
def StepConfig.withWords (s : StepConfig) (args : List String) : EffectiveRun :=
  ⟨args, recordedEnv .empty s.env, s.workspace⟩

/-- The effective run of a step. -/
def StepConfig.effective (s : StepConfig) : Except GraphError EffectiveRun := do
  let options ← RunOptions.ofCommand s.run
  Build.checkProgram options.args
  return s.withWords options.args

/-- A command without an environment of its own, as a step. -/
def StepConfig.plain (line : String) (workspace : WorkspaceMode) : StepConfig := ⟨line, .empty, workspace⟩

/-- What a stage runs: a setup command does not see the workspace. -/
def StageConfig.commands (s : StageConfig) : List StepConfig :=
  s.setup.map (StepConfig.plain · .none) ++ s.steps

/-- A path taken out of a filesystem and put into the empty one. -/
def Unfolding.extract (source : Unfolding) (path dest : String) : Unfolding :=
  .node (.copy ⟨none, some 0, path, dest, .extract⟩) 0 [source]

/-- The mounts of a run behind its root. -/
def WorkspaceMode.mountPoints (workdir : String) : WorkspaceMode → List MountPoint
  | readWrite => [⟨some 1, .none, workdir, some 1, false⟩]
  | readOnly => [⟨some 1, .none, workdir, .none, true⟩]
  | none => []

/-- The process of a run and its mounts. -/
def EffectiveRun.exec (workdir : String) (run : EffectiveRun) : Exec :=
  ⟨⟨run.args, run.env, Path.join "/" workdir⟩,
    ⟨some 0, none, "/", some 0, false⟩ :: run.workspace.mountPoints workdir⟩

/-- The root filesystem of a stage and its workspace. -/
structure Site where
  root : Unfolding
  workspace : Unfolding

namespace Site

/-- What a run reads. -/
def inputs (site : Site) : WorkspaceMode → List Unfolding
  | .readWrite | .readOnly => [site.root, site.workspace]
  | .none => [site.root]

/-- An output of a run at a site. -/
def output (workdir : String) (site : Site) (run : EffectiveRun) (index : Nat) : Unfolding :=
  .node (.exec (run.exec workdir)) index (site.inputs run.workspace)

/-- The site that a run leads to. Only a run that may change the workspace leaves another one. -/
def after (workdir : String) (site : Site) (run : EffectiveRun) : Site where
  root := site.output workdir run 0
  workspace :=
    match run.workspace with
    | .readWrite => site.output workdir run 1
    | .readOnly | .none => site.workspace

/-- The site that some runs lead to. -/
def afterAll (workdir : String) (site : Site) (runs : List EffectiveRun) : Site := runs.foldl (after workdir) site

/-- Each run with the site that it leads to. -/
def stops (workdir : String) : Site → List EffectiveRun → List (EffectiveRun × Site)
  | _, [] => []
  | site, run :: runs => (run, site.after workdir run) :: stops workdir (site.after workdir run) runs

/-- The filesystem that holds a path behind a run that has led to the site, and the path in it. -/
def held (workdir : String) (site : Site) (mode : WorkspaceMode) (path : String) : Unfolding × String :=
  match mode, Path.stripBase? path workdir with
  | .readWrite, some rest => (site.workspace, rest)
  | _, _ => (site.root, path)

variable (workdir : String) (site : Site)

theorem workspace_after_readWrite {run : EffectiveRun} (h : run.workspace = .readWrite) :
    (site.after workdir run).workspace = site.output workdir run 1 := by
  rw [after, h]

theorem workspace_after_of_ne {run : EffectiveRun} (h : run.workspace ≠ .readWrite) :
    (site.after workdir run).workspace = site.workspace := by
  unfold after
  split
  · contradiction
  · rfl
  · rfl

theorem workspace_afterAll_of_ne {runs : List EffectiveRun} (h : ∀ run ∈ runs, run.workspace ≠ .readWrite) :
    (site.afterAll workdir runs).workspace = site.workspace := by
  induction runs generalizing site with
  | nil => rfl
  | cons run runs ih =>
      obtain ⟨hrun, hruns⟩ := List.forall_mem_cons.1 h
      exact (ih (site.after workdir run) hruns).trans (workspace_after_of_ne workdir site hrun)

theorem afterAll_append (runs more : List EffectiveRun) :
    site.afterAll workdir (runs ++ more) = (site.afterAll workdir runs).afterAll workdir more :=
  List.foldl_append

theorem stops_append (runs more : List EffectiveRun) :
    site.stops workdir (runs ++ more) =
      site.stops workdir runs ++ (site.afterAll workdir runs).stops workdir more := by
  induction runs generalizing site with
  | nil => rfl
  | cons run runs ih =>
      rw [List.cons_append, stops, ih, stops, List.cons_append]
      rfl

theorem map_fst_stops (runs : List EffectiveRun) : (site.stops workdir runs).map (·.1) = runs := by
  induction runs generalizing site with
  | nil => rfl
  | cons run runs ih => exact congrArg (run :: ·) (ih (site.after workdir run))

/-- A stop is the site that its run leads to from somewhere. -/
theorem exists_of_mem_stops {runs : List EffectiveRun} {stop : EffectiveRun × Site}
    (h : stop ∈ site.stops workdir runs) : ∃ before : Site, stop.2 = before.after workdir stop.1 := by
  induction runs generalizing site with
  | nil => cases h
  | cons run runs ih =>
      rcases List.mem_cons.1 h with rfl | h
      · exact ⟨site, rfl⟩
      · exact ih (site.after workdir run) h

theorem getLast?_stops (runs : List EffectiveRun) :
    (site.stops workdir runs).getLast? = runs.getLast?.map fun run => (run, site.afterAll workdir runs) := by
  cases runs.eq_nil_or_concat with
  | inl h =>
      rw [h]
      rfl
  | inr h =>
      obtain ⟨before, run, rfl⟩ := h
      rw [List.concat_eq_append, stops_append, afterAll_append]
      simp only [stops, List.getLast?_concat, Option.map_some]
      rfl

/-- The site that the run at a position leads to is the one behind all runs up to that position. -/
theorem getElem?_stops (runs : List EffectiveRun) (k : Nat) :
    (site.stops workdir runs)[k]? =
      runs[k]?.map fun run => (run, site.afterAll workdir (runs.take (k + 1))) := by
  induction runs generalizing site k with
  | nil => rfl
  | cons run runs ih =>
      rw [stops]
      cases k with
      | zero => rfl
      | succ k => exact ih (site.after workdir run) k

theorem held_readWrite {path rest : String} (h : Path.stripBase? path workdir = some rest) :
    site.held workdir .readWrite path = (site.workspace, rest) := by
  unfold held
  rw [h]

theorem held_root {mode : WorkspaceMode} {path : String}
    (h : mode = .readWrite → Path.stripBase? path workdir = none) :
    site.held workdir mode path = (site.root, path) := by
  cases mode with
  | readWrite =>
      unfold held
      rw [h rfl]
  | readOnly => rfl
  | none => rfl

end Site

/-- What every stage has in common: the complete name of the image, the runs that install the system packages and
the dependencies, the path of the manifest, and where the workspace comes from and is mounted. -/
structure BaseRecipe where
  image : String
  system : EffectiveRun
  context : String
  manifest : String
  install : EffectiveRun
  workdir : String
deriving DecidableEq

def imageTree (name : String) : Unfolding := .node (.source ⟨"docker-image://" ++ name, .empty⟩) 0 []

def contextTree (name : String) : Unfolding :=
  .node (.source ⟨"local://" ++ name, .ofList [(Build.localHint, name)]⟩) 0 []

theorem imageTree_ne_contextTree (image context : String) : imageTree image ≠ contextTree context := by
  intro h
  have hop := Op.source.inj (Unfolding.node.inj h).1
  have htext := congrArg String.toList (Source.mk.inj hop).1
  simp at htext

namespace BaseRecipe

variable (b : BaseRecipe)

def systemTree : Unfolding := Site.output b.workdir ⟨imageTree b.image, contextTree b.context⟩ b.system 0

def manifestTree : Unfolding := (contextTree b.context).extract b.manifest b.manifest

def installTree : Unfolding := Site.output b.workdir ⟨b.systemTree, b.manifestTree⟩ b.install 0

/-- The dependencies are installed over the system packages, and with the manifest in sight. -/
theorem installTree_eq (h : b.install.workspace = .readOnly) :
    b.installTree = .node (.exec (b.install.exec b.workdir)) 0 [b.systemTree, b.manifestTree] := by
  rw [installTree, Site.output, h]
  rfl

/-- What the base adds to a graph. -/
def trees : List Unfolding :=
  [imageTree b.image, b.systemTree, contextTree b.context, b.manifestTree, b.installTree]

/-- Where every stage starts. -/
def start : Site := ⟨b.installTree, contextTree b.context⟩

/-- The site after some runs of a stage. -/
def siteAfter (runs : List EffectiveRun) : Site := b.start.afterAll b.workdir runs

theorem siteAfter_concat (runs : List EffectiveRun) (run : EffectiveRun) :
    b.siteAfter (runs ++ [run]) = (b.siteAfter runs).after b.workdir run :=
  Site.afterAll_append b.workdir b.start runs [run]

end BaseRecipe

/-- The base of a stage, its effective runs, and where its result is and is to be, in normal form. -/
structure StageRecipe where
  base : BaseRecipe
  runs : List EffectiveRun
  output : String
  exportPath : String
deriving DecidableEq

namespace StageRecipe

variable (r : StageRecipe)

/-- How the last run sees the workspace. -/
def lastMode : WorkspaceMode := (r.runs.getLast?.map EffectiveRun.workspace).getD .none

/-- The filesystem that holds the result after the last run, and the path in it. -/
def held : Unfolding × String := (r.base.siteAfter r.runs).held r.base.workdir r.lastMode r.output

/-- The result is held by the root filesystem, or the last run could change the workspace and the result lies there. -/
theorem held_cases :
    r.held = ((r.base.siteAfter r.runs).root, r.output) ∨
      ∃ before run rest, r.runs = before ++ [run] ∧ Path.stripBase? r.output r.base.workdir = some rest ∧
        r.held = ((r.base.siteAfter before).output r.base.workdir run 1, rest) := by
  by_cases hmode : r.lastMode = .readWrite
  · obtain ⟨before, run, hruns, hrun⟩ : ∃ before run, r.runs = before ++ [run] ∧ run.workspace = .readWrite := by
      cases hlast : r.runs.getLast? with
      | none => simp [lastMode, hlast] at hmode
      | some run =>
          obtain ⟨before, hruns⟩ := List.getLast?_eq_some_iff.1 hlast
          refine ⟨before, run, hruns, ?_⟩
          simpa [lastMode, hlast] using hmode
    rw [held, hmode]
    cases hstrip : Path.stripBase? r.output r.base.workdir with
    | none => exact .inl (Site.held_root _ _ fun _ => hstrip)
    | some rest =>
        refine .inr ⟨before, run, rest, hruns, rfl, ?_⟩
        rw [Site.held_readWrite _ _ hstrip, hruns, BaseRecipe.siteAfter_concat,
          Site.workspace_after_readWrite _ _ hrun]
  · exact .inl (Site.held_root _ _ fun h => absurd h hmode)

/-- The result of the stage. -/
def tree : Unfolding := r.held.1.extract r.held.2 r.exportPath

/-- Each run of the stage with the site that it leads to. -/
def stops : List (EffectiveRun × Site) := r.base.start.stops r.base.workdir r.runs

/-- What the stage adds to a graph. -/
def trees : List Unfolding := r.base.trees ++ (r.stops.map (·.2.root) ++ [r.tree])

end StageRecipe

namespace Build

/-- A local directory has a name that can stand for one. -/
def checkLocalName (name : String) : Except GraphError Unit :=
  if isLocalName name then .ok () else .error (.invalidLocalName name)

end Build

def BaseConfig.recipe (b : BaseConfig) : Except GraphError BaseRecipe := do
  let image ← (ImageRef.normalize b.image).mapError (.invalidImageRef b.image)
  let system ← (StepConfig.plain b.systemInstall .none).effective
  Build.checkLocalName b.context
  let install ← (StepConfig.plain b.dependencyInstall .readOnly).effective
  return ⟨image, system, b.context, Path.normalize ("/" ++ b.manifest), install, b.workdir⟩

/-- The recipe of a stage that is in order by itself. -/
def StageConfig.recipe (b : BaseConfig) (s : StageConfig) : Except PipelineError StageRecipe := do
  let base ← b.recipe.mapError .base
  let runs ← (s.commands.mapM StepConfig.effective).mapError (.stage s.name)
  return ⟨base, runs, Path.normalize s.output, Path.normalize s.exportPath⟩

/-- The recipes of all stages of a config. -/
def PipelineConfig.recipe (c : PipelineConfig) : Except PipelineError (List StageRecipe) := do
  c.validate.mapError .invalidConfig
  c.stages.mapM (StageConfig.recipe c.base)

theorem StepConfig.effective_eq_ok_iff {s : StepConfig} {run : EffectiveRun} :
    s.effective = .ok run ↔
      ∃ args, Shell.words? s.run = some args ∧ hasProgram args = true ∧ s.withWords args = run := by
  unfold effective RunOptions.ofCommand Build.checkProgram
  cases Shell.words? s.run with
  | none => simp [bind, Except.bind]
  | some args =>
      cases hprogram : hasProgram args <;>
        simp [RunOptions.ofArgs, hprogram, bind, Except.bind, pure, Except.pure]

theorem BaseConfig.recipe_eq_ok_iff {b : BaseConfig} {r : BaseRecipe} :
    b.recipe = .ok r ↔
      ImageRef.normalize b.image = .ok r.image ∧ (StepConfig.plain b.systemInstall .none).effective = .ok r.system ∧
        Build.checkLocalName b.context = .ok () ∧
        (StepConfig.plain b.dependencyInstall .readOnly).effective = .ok r.install ∧
        r.context = b.context ∧ r.manifest = Path.normalize ("/" ++ b.manifest) ∧ r.workdir = b.workdir := by
  unfold recipe
  simp only [bind_eq_ok_iff, mapError_eq_ok_iff, pure, Except.pure, Except.ok.injEq]
  constructor
  · rintro ⟨image, himage, system, hsystem, _, hname, install, hinstall, rfl⟩
    exact ⟨himage, hsystem, hname, hinstall, rfl, rfl, rfl⟩
  · rintro ⟨himage, hsystem, hname, hinstall, hcontext, hmanifest, hworkdir⟩
    refine ⟨_, himage, _, hsystem, (), hname, _, hinstall, ?_⟩
    rw [← hcontext, ← hmanifest, ← hworkdir]

/-- The installation of the dependencies cannot change the manifest. -/
theorem BaseConfig.install_readOnly {b : BaseConfig} {r : BaseRecipe} (h : b.recipe = .ok r) :
    r.install.workspace = .readOnly := by
  obtain ⟨-, -, -, hinstall, -⟩ := BaseConfig.recipe_eq_ok_iff.1 h
  obtain ⟨args, -, -, hwords⟩ := StepConfig.effective_eq_ok_iff.1 hinstall
  rw [← hwords]
  rfl

theorem StageConfig.recipe_eq_ok_iff {b : BaseConfig} {s : StageConfig} {r : StageRecipe} :
    s.recipe b = .ok r ↔
      b.recipe = .ok r.base ∧ s.commands.mapM StepConfig.effective = .ok r.runs ∧
        r.output = Path.normalize s.output ∧ r.exportPath = Path.normalize s.exportPath := by
  unfold recipe
  simp only [bind_eq_ok_iff, mapError_eq_ok_iff, pure, Except.pure, Except.ok.injEq]
  constructor
  · rintro ⟨base, hbase, runs, hruns, rfl⟩
    exact ⟨hbase, hruns, rfl, rfl⟩
  · rintro ⟨hbase, hruns, houtput, hexport⟩
    refine ⟨_, hbase, _, hruns, ?_⟩
    rw [← houtput, ← hexport]

theorem PipelineConfig.recipe_eq_ok_iff {c : PipelineConfig} {rs : List StageRecipe} :
    c.recipe = .ok rs ↔ c.Valid ∧ List.Forall₂ (fun s r => s.recipe c.base = .ok r) c.stages rs := by
  rw [recipe, check_bind_eq_ok_iff, mapError_eq_ok_iff, validate_eq_ok_iff, mapM_eq_ok_iff]

end BuildGraph
