import BuildGraph.Proofs.Graph.Answer
import BuildGraph.Proofs.Pipeline.Assembly

/-!
# What keeps a config from being assembled

An assembly does what the recipes of the config say, so whether it fails, and with which error, does not depend on the
graph (`assemble_outcome`). Many steps of an assembly could refuse something: a state that the graph does not have, a
mount that is not there or cannot be written, a name. Recipes know nothing of these, so none of them ever comes up.

What remains is described by `PipelineConfig.Failure`: the config is not valid, the base cannot be built, or a stage has
a line without a program, and then the first of these in the order of the config is reported. The graph keeps what it
had in any case.
-/

namespace BuildGraph

/-- The line has words, and the first of them names a program. -/
def Runnable (line : String) : Prop := ∃ program args, Shell.words? line = some (program :: args) ∧ program ≠ ""

/-- What is wrong with a line: it cannot be split into words, or it names no program. -/
inductive LineFault (line : String) : GraphError → Prop
  | unparsable (h : Shell.words? line = none) : LineFault line (.unparsableCommand line)
  | empty {args : List String} (h : Shell.words? line = some args) (hprogram : hasProgram args = false) :
      LineFault line .emptyArgs

/-- What is wrong with the first of some lines that cannot be run. -/
def FirstFault (lines : List String) (reason : GraphError) : Prop :=
  ∃ before line after, lines = before ++ line :: after ∧ (∀ l ∈ before, Runnable l) ∧ LineFault line reason

/-- The lines of a stage in the order in which they are run. -/
def StageConfig.lines (s : StageConfig) : List String := s.setup ++ s.steps.map (·.run)

/-- The image has a complete name, the context a name that can stand for a directory, and both lines can be run. -/
structure BaseConfig.Buildable (b : BaseConfig) : Prop where
  image : ∃ name, ImageRef.normalize b.image = .ok name
  system : Runnable b.systemInstall
  context : Build.isLocalName b.context = true
  install : Runnable b.dependencyInstall

/-- The first thing that is wrong with a base. -/
inductive BaseConfig.Fault (b : BaseConfig) : GraphError → Prop
  | image {problem : ImageRef.Problem} (h : ImageRef.normalize b.image = .error problem) :
      Fault b (.invalidImageRef b.image problem)
  | system {name : String} {reason : GraphError} (himage : ImageRef.normalize b.image = .ok name)
      (h : LineFault b.systemInstall reason) : Fault b reason
  | context {name : String} (himage : ImageRef.normalize b.image = .ok name) (hsystem : Runnable b.systemInstall)
      (h : Build.isLocalName b.context = false) : Fault b (.invalidLocalName b.context)
  | install {name : String} {reason : GraphError} (himage : ImageRef.normalize b.image = .ok name)
      (hsystem : Runnable b.systemInstall) (hcontext : Build.isLocalName b.context = true)
      (h : LineFault b.dependencyInstall reason) : Fault b reason

/-- What keeps a config from being assembled, and the error that it gives. -/
inductive PipelineConfig.Failure (c : PipelineConfig) : PipelineError → Prop
  | config {problem : ConfigProblem} (h : c.validate = .error problem) : Failure c (.invalidConfig problem)
  | base {reason : GraphError} (hvalid : c.validate = .ok ()) (h : c.base.Fault reason) : Failure c (.base reason)
  | stage {before after : List StageConfig} {s : StageConfig} {reason : GraphError} (hvalid : c.validate = .ok ())
      (hbase : c.base.Buildable) (hstages : c.stages = before ++ s :: after)
      (hbefore : ∀ t ∈ before, ∀ line ∈ t.lines, Runnable line) (h : FirstFault s.lines reason) :
      Failure c (.stage s.name reason)

/-!
### Lines
-/

theorem runnable_iff {line : String} :
    Runnable line ↔ ∃ args, Shell.words? line = some args ∧ hasProgram args = true := by
  constructor
  · rintro ⟨program, args, hwords, hne⟩
    refine ⟨_, hwords, ?_⟩
    unfold hasProgram
    split
    · contradiction
    · rename_i heq
      exact absurd (List.cons.inj heq).1 hne
    · rfl
  · rintro ⟨args, hwords, hprogram⟩
    cases args with
    | nil => cases hprogram
    | cons program args =>
        refine ⟨program, args, hwords, ?_⟩
        rintro rfl
        cases hprogram

instance (line : String) : Decidable (Runnable line) :=
  decidable_of_iff ((Shell.words? line).any hasProgram = true) (by rw [runnable_iff, Option.any_eq_true])

/-- A step has an effective run if its line can be run. -/
theorem StepConfig.exists_effective_iff {s : StepConfig} : (∃ run, s.effective = .ok run) ↔ Runnable s.run := by
  simp only [effective_eq_ok_iff, runnable_iff]
  constructor
  · rintro ⟨run, args, hwords, hprogram, -⟩
    exact ⟨args, hwords, hprogram⟩
  · rintro ⟨args, hwords, hprogram⟩
    exact ⟨_, args, hwords, hprogram, rfl⟩

theorem StepConfig.effective_eq_error_iff {s : StepConfig} {reason : GraphError} :
    s.effective = .error reason ↔ LineFault s.run reason := by
  unfold effective RunOptions.ofCommand Build.checkProgram
  constructor
  · intro h
    cases hwords : Shell.words? s.run with
    | none =>
        rw [hwords] at h
        obtain rfl := Except.error.inj h
        exact .unparsable hwords
    | some args =>
        rw [hwords] at h
        cases hprogram : hasProgram args with
        | false =>
            simp [RunOptions.ofArgs, hprogram, bind, Except.bind] at h
            exact h ▸ .empty hwords hprogram
        | true => simp [RunOptions.ofArgs, hprogram, bind, Except.bind, pure, Except.pure] at h
  · intro h
    cases h with
    | unparsable hwords =>
        rw [hwords]
        rfl
    | empty hwords hprogram =>
        rw [hwords]
        simp [RunOptions.ofArgs, hprogram, bind, Except.bind]

/-- The effective runs of some steps fail at the first line that cannot be run. -/
theorem mapM_effective_eq_error_iff {ss : List StepConfig} {reason : GraphError} :
    ss.mapM StepConfig.effective = .error reason ↔ FirstFault (ss.map (·.run)) reason := by
  rw [mapM_eq_error_iff]
  constructor
  · rintro ⟨before, s, after, rfl, hbefore, hs⟩
    refine ⟨before.map (·.run), s.run, after.map (·.run), ?_, ?_, StepConfig.effective_eq_error_iff.1 hs⟩
    · rw [List.map_append, List.map_cons]
    · rw [List.forall_mem_map]
      exact fun t ht => StepConfig.exists_effective_iff.1 (hbefore t ht)
  · rintro ⟨lines, line, rest, hsplit, hlines, hline⟩
    obtain ⟨before, more, rfl, rfl, hmore⟩ := List.map_eq_append_iff.1 hsplit
    obtain ⟨s, after, rfl, rfl, rfl⟩ := List.map_eq_cons_iff.1 hmore
    rw [List.forall_mem_map] at hlines
    exact ⟨before, s, after, rfl, fun t ht => StepConfig.exists_effective_iff.2 (hlines t ht),
      StepConfig.effective_eq_error_iff.2 hline⟩

theorem exists_mapM_effective_iff {ss : List StepConfig} :
    (∃ runs, ss.mapM StepConfig.effective = .ok runs) ↔ ∀ line ∈ ss.map (·.run), Runnable line := by
  simp only [mapM_eq_ok_iff, List.forall_mem_map, ← StepConfig.exists_effective_iff]
  constructor
  · rintro ⟨runs, hruns⟩ s hs
    obtain ⟨run, -, hrun⟩ := exists_of_mem_left hruns hs
    exact ⟨run, hrun⟩
  · exact exists_forall₂

theorem StageConfig.map_run_commands (s : StageConfig) : s.commands.map (·.run) = s.lines := by
  simp [commands, lines, StepConfig.plain, Function.comp_def]

/-!
### Recipes that fail
-/

theorem checkLocalName_eq_ok_iff {name : String} :
    Build.checkLocalName name = .ok () ↔ Build.isLocalName name = true := by
  unfold Build.checkLocalName
  split <;> simp_all

theorem checkLocalName_eq_error_iff {name : String} {e : GraphError} :
    Build.checkLocalName name = .error e ↔ Build.isLocalName name = false ∧ e = .invalidLocalName name := by
  unfold Build.checkLocalName
  cases Build.isLocalName name with
  | true => simp
  | false => simp [eq_comm (a := e)]

namespace BaseConfig

variable {b : BaseConfig}

theorem exists_recipe_iff : (∃ r, b.recipe = .ok r) ↔ b.Buildable := by
  constructor
  · rintro ⟨r, hr⟩
    obtain ⟨himage, hsystem, hcontext, hinstall, -⟩ := recipe_eq_ok_iff.1 hr
    exact ⟨⟨_, himage⟩, StepConfig.exists_effective_iff.1 ⟨_, hsystem⟩, checkLocalName_eq_ok_iff.1 hcontext,
      StepConfig.exists_effective_iff.1 ⟨_, hinstall⟩⟩
  · rintro ⟨⟨image, himage⟩, hsystem, hcontext, hinstall⟩
    obtain ⟨system, hsystem⟩ := (StepConfig.exists_effective_iff (s := .plain b.systemInstall .none)).2 hsystem
    obtain ⟨install, hinstall⟩ :=
      (StepConfig.exists_effective_iff (s := .plain b.dependencyInstall .readOnly)).2 hinstall
    exact ⟨⟨image, system, b.context, _, install, b.workdir⟩,
      recipe_eq_ok_iff.2 ⟨himage, hsystem, checkLocalName_eq_ok_iff.2 hcontext, hinstall, rfl, rfl, rfl⟩⟩

theorem recipe_eq_error_iff {reason : GraphError} : b.recipe = .error reason ↔ b.Fault reason := by
  constructor
  · intro h
    -- The parts of the base in their order: the image, the system packages, the context and the dependencies.
    rcases bind_eq_error_iff.1 h with h | ⟨name, himage, h⟩
    · obtain ⟨problem, hproblem, rfl⟩ := mapError_eq_error_iff.1 h
      exact .image hproblem
    replace himage := mapError_eq_ok_iff.1 himage
    rcases bind_eq_error_iff.1 h with h | ⟨system, hsystem, h⟩
    · exact .system himage (StepConfig.effective_eq_error_iff.1 h)
    replace hsystem : Runnable b.systemInstall := StepConfig.exists_effective_iff.1 ⟨_, hsystem⟩
    rcases check_bind_eq_error_iff.1 h with h | ⟨hcontext, h⟩
    · rw [checkLocalName_eq_error_iff] at h
      obtain ⟨hcontext, rfl⟩ := h
      exact .context himage hsystem hcontext
    rw [checkLocalName_eq_ok_iff] at hcontext
    rcases bind_eq_error_iff.1 h with h | ⟨install, -, h⟩
    · exact .install himage hsystem hcontext (StepConfig.effective_eq_error_iff.1 h)
    · cases h
  · intro h
    cases h with
    | image h =>
        rw [recipe, h]
        rfl
    | system himage h =>
        have hsystem := (StepConfig.effective_eq_error_iff (s := .plain b.systemInstall .none)).2 h
        rw [recipe, himage, hsystem]
        rfl
    | context himage hsystem h =>
        obtain ⟨system, hsystem⟩ := (StepConfig.exists_effective_iff (s := .plain b.systemInstall .none)).2 hsystem
        rw [recipe, himage, hsystem, checkLocalName_eq_error_iff.2 ⟨h, rfl⟩]
        rfl
    | install himage hsystem hcontext h =>
        obtain ⟨system, hsystem⟩ := (StepConfig.exists_effective_iff (s := .plain b.systemInstall .none)).2 hsystem
        have hinstall := (StepConfig.effective_eq_error_iff (s := .plain b.dependencyInstall .readOnly)).2 h
        rw [recipe, himage, hsystem, checkLocalName_eq_ok_iff.2 hcontext, hinstall]
        rfl

/-- There is something wrong with a base that cannot be built, and with no other. -/
theorem exists_fault_iff : (∃ reason, b.Fault reason) ↔ ¬b.Buildable := by
  rw [← exists_recipe_iff]
  simp only [← recipe_eq_error_iff]
  cases b.recipe <;> simp

end BaseConfig

theorem StageConfig.exists_recipe_iff {b : BaseConfig} (hb : b.Buildable) {s : StageConfig} :
    (∃ r, s.recipe b = .ok r) ↔ ∀ line ∈ s.lines, Runnable line := by
  obtain ⟨base, hbase⟩ := BaseConfig.exists_recipe_iff.2 hb
  rw [← map_run_commands, ← exists_mapM_effective_iff]
  constructor
  · rintro ⟨r, hr⟩
    exact ⟨r.runs, (recipe_eq_ok_iff.1 hr).2.1⟩
  · rintro ⟨runs, hruns⟩
    exact ⟨⟨base, runs, _, _⟩, recipe_eq_ok_iff.2 ⟨hbase, hruns, rfl, rfl⟩⟩

/-- A stage fails because of the base, or because of its own first line that cannot be run. -/
theorem StageConfig.recipe_eq_error_iff {b : BaseConfig} {s : StageConfig} {e : PipelineError} :
    s.recipe b = .error e ↔
      (∃ reason, b.Fault reason ∧ e = .base reason) ∨
        b.Buildable ∧ ∃ reason, FirstFault s.lines reason ∧ e = .stage s.name reason := by
  rw [recipe, bind_eq_error_iff, mapError_eq_error_iff, ← BaseConfig.exists_recipe_iff, ← map_run_commands]
  simp only [mapError_eq_ok_iff, bind_eq_error_iff, mapError_eq_error_iff, BaseConfig.recipe_eq_error_iff,
    mapM_effective_eq_error_iff, pure, Except.pure, reduceCtorEq, and_false, exists_false, or_false, eq_comm (b := e),
    exists_and_right]

namespace PipelineConfig

variable {c : PipelineConfig}

theorem exists_recipe_iff :
    (∃ rs, c.recipe = .ok rs) ↔
      c.validate = .ok () ∧ c.base.Buildable ∧ ∀ s ∈ c.stages, ∀ line ∈ s.lines, Runnable line := by
  simp only [recipe_eq_ok_iff, ← validate_eq_ok_iff]
  constructor
  · rintro ⟨rs, hvalid, hrs⟩
    have hrecipes : ∀ s ∈ c.stages, ∃ r, s.recipe c.base = .ok r := by
      intro s hs
      obtain ⟨r, -, hr⟩ := exists_of_mem_left hrs hs
      exact ⟨r, hr⟩
    obtain ⟨s, hs⟩ := List.exists_mem_of_ne_nil _ (validate_eq_ok_iff.1 hvalid).stages
    obtain ⟨r, hr⟩ := hrecipes s hs
    have hbase : c.base.Buildable := BaseConfig.exists_recipe_iff.1 ⟨_, (StageConfig.recipe_eq_ok_iff.1 hr).1⟩
    exact ⟨hvalid, hbase, fun s hs => (StageConfig.exists_recipe_iff hbase).1 (hrecipes s hs)⟩
  · rintro ⟨hvalid, hbase, hlines⟩
    obtain ⟨rs, hrs⟩ := exists_forall₂ fun s hs => (StageConfig.exists_recipe_iff hbase).2 (hlines s hs)
    exact ⟨rs, hvalid, hrs⟩

theorem recipe_eq_error_iff {e : PipelineError} : c.recipe = .error e ↔ c.Failure e := by
  rw [recipe, check_bind_eq_error_iff, mapError_eq_error_iff, mapError_eq_ok_iff, mapM_eq_error_iff]
  constructor
  · rintro (⟨problem, hproblem, rfl⟩ | ⟨hvalid, before, s, after, hstages, hbefore, hs⟩)
    · exact .config hproblem
    rcases StageConfig.recipe_eq_error_iff.1 hs with ⟨reason, hreason, rfl⟩ | ⟨hbase, reason, hreason, rfl⟩
    · exact .base hvalid hreason
    · exact .stage hvalid hbase hstages (fun t ht => (StageConfig.exists_recipe_iff hbase).1 (hbefore t ht)) hreason
  · intro h
    cases h with
    | config hproblem => exact .inl ⟨_, hproblem, rfl⟩
    | base hvalid hreason =>
        -- the base is built for the first stage already
        obtain ⟨s, rest, hstages⟩ := List.exists_cons_of_ne_nil (validate_eq_ok_iff.1 hvalid).stages
        exact .inr ⟨hvalid, [], s, rest, hstages, fun _ h => absurd h List.not_mem_nil,
          StageConfig.recipe_eq_error_iff.2 (.inl ⟨_, hreason, rfl⟩)⟩
    | stage hvalid hbase hstages hbefore hreason =>
        exact .inr ⟨hvalid, _, _, _, hstages, fun t ht => (StageConfig.exists_recipe_iff hbase).2 (hbefore t ht),
          StageConfig.recipe_eq_error_iff.2 (.inr ⟨hbase, _, hreason, rfl⟩)⟩

end PipelineConfig

namespace Build

theorem error_iff_failure (c : PipelineConfig) {g : Graph} (hg : g.Sound) {e : PipelineError} :
    ((assemble c).run g).1 = .error e ↔ c.Failure e := by
  rw [← PipelineConfig.recipe_eq_error_iff, ← (follows_recordAll hg c).error_iff, assemble_eq_recordAll, run_map]
  cases ((recordAll c).run g).1 <;> simp [Except.map]

theorem grows_assemble (c : PipelineConfig) : (assemble c).Grows := by
  rw [assemble_eq_traceAll, ← bind_pure_comp]
  refine Grows.bind ?_ fun _ => grows_pure _
  exact (grows_ofExcept _).bind fun _ => grows_mapM (grows_traceStage c.base) c.stages

theorem exists_ok_iff_runnable (c : PipelineConfig) {g : Graph} (hg : g.Sound) :
    (∃ p, ((assemble c).run g).1 = .ok p) ↔
      c.validate = .ok () ∧ c.base.Buildable ∧ ∀ s ∈ c.stages, ∀ line ∈ s.lines, Runnable line := by
  rw [← PipelineConfig.exists_recipe_iff, ← exists_assemble_iff c hg]
  refine exists_congr fun p => ?_
  constructor
  · intro h
    exact ⟨_, Prod.ext h rfl⟩
  · rintro ⟨g', h⟩
    rw [h]

/-- What comes of an assembly, in any graph. It succeeds just if the config is valid, the base can be built and every
line of every stage can be run, and otherwise it fails with the first thing that is wrong, as it does in the empty
graph. In a valid config a base that cannot be built is reported before any stage, and of a stage nothing is reported
but a line. What was in the graph stays as it was. -/
theorem assemble_outcome (c : PipelineConfig) {g : Graph} (hg : g.Reachable) :
    (∀ id, ((assemble c).run g).1.map (fun _ => ()) = ((assemble c).run (.empty id)).1.map fun _ => ()) ∧
      ((∃ p, ((assemble c).run g).1 = .ok p) ↔
        c.validate = .ok () ∧ c.base.Buildable ∧ ∀ s ∈ c.stages, ∀ line ∈ s.lines, Runnable line) ∧
      (∀ e, ((assemble c).run g).1 = .error e ↔ c.Failure e) ∧
      (c.validate = .ok () → ¬c.base.Buildable →
        ∃ reason, c.base.Fault reason ∧ ((assemble c).run g).1 = .error (.base reason)) ∧
      (∀ name reason, ((assemble c).run g).1 = .error (.stage name reason) →
        reason = .emptyArgs ∨ ∃ line, reason = .unparsableCommand line) ∧
      g.GrowsTo ((assemble c).run g).2 ∧
      (∀ problem, c.validate = .error problem → (assemble c).run g = (.error (.invalidConfig problem), g)) := by
  have hok := exists_ok_iff_runnable c hg.sound
  have herror := fun e => error_iff_failure c hg.sound (e := e)
  refine ⟨fun id => ?_, hok, herror, fun hvalid hbase => ?_, fun name reason h => ?_, grows_assemble c g, ?_⟩
  · have hempty := Graph.sound_empty id
    cases hresult : ((assemble c).run g).1 with
    | ok p =>
        obtain ⟨p', hp'⟩ := (exists_ok_iff_runnable c hempty).2 (hok.1 ⟨p, hresult⟩)
        rw [hp']
        rfl
    | error e =>
        rw [(error_iff_failure c hempty).2 ((herror e).1 hresult)]
  · obtain ⟨reason, hreason⟩ := BaseConfig.exists_fault_iff.2 hbase
    exact ⟨reason, hreason, (herror _).2 (.base hvalid hreason)⟩
  · cases (herror _).1 h with
    | stage _ _ _ _ hfault =>
        obtain ⟨_, line, _, _, _, hline⟩ := hfault
        cases hline with
        | unparsable => exact .inr ⟨line, rfl⟩
        | empty => exact .inl rfl
  · intro problem hproblem
    unfold assemble
    rw [hproblem]
    rfl

/-- A config whose second stage has a line with a quote that is not closed. -/
def unbalancedConfig : PipelineConfig where
  base := ⟨"alpine", "apk add make", "make deps", "Makefile", "/app", "src"⟩
  stages :=
    [⟨"build", ["true"], [⟨"make", .empty, .readWrite⟩], "/app/dist", none⟩,
      ⟨"docs", [], [⟨"make docs", .empty, .readOnly⟩, ⟨"echo 'done", .empty, .none⟩], "/app/docs", none⟩]

/-- It fails in the second stage, and that is found where other things have been built before. -/
theorem assemble_outcome_unbalanced :
    sampleGraph.Reachable ∧
      unbalancedConfig.Failure (.stage "docs" (.unparsableCommand "echo 'done")) ∧
        ((assemble unbalancedConfig).run sampleGraph).1 = .error (.stage "docs" (.unparsableCommand "echo 'done")) := by
  have hstages : unbalancedConfig.stages = [_] ++ _ :: [] := rfl
  have hfault : FirstFault ["make docs", "echo 'done"] (.unparsableCommand "echo 'done") :=
    ⟨["make docs"], _, [], rfl, by decide, .unparsable rfl⟩
  have hfailure : unbalancedConfig.Failure (.stage "docs" (.unparsableCommand "echo 'done")) :=
    .stage rfl ⟨⟨_, rfl⟩, by decide, rfl, by decide⟩ hstages (by decide) hfault
  exact ⟨reachable_sample, hfailure, ((assemble_outcome unbalancedConfig reachable_sample).2.2.1 _).2 hfailure⟩

end Build

end BuildGraph
