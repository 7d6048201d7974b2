import BuildGraph.Proofs.Graph.Growth

/-!
# What a stage goes through

Of the steps of a stage `assemble` keeps the last one only, and the workspace as a state that changes on the way.
`traceAll` is the same build with a memory: for every stage it keeps the state of the directory that the
workspace starts as, and the runs of all steps. `assemble_eq_traceAll` says that nothing else is different.
-/

namespace BuildGraph

/-- The directory that the workspace of a stage starts as, the runs of its steps in their order, and the stage
that they lead to. -/
structure StageTrace where
  context : State
  runs : List (StepConfig × RunResult)
  stage : Stage

namespace Build

variable {ε ε' α β : Type}

/-- The runs of some steps, from a root filesystem and a workspace on. -/
def traceSteps (workdir : String) :
    State → State → List StepConfig → Build GraphError (List (StepConfig × RunResult))
  | _, _, [] => return []
  | current, workspace, s :: ss => do
    let r ← command current s.run (stepMounts workdir workspace s.workspace) s.env
    let workspace ← ofExcept (nextWorkspace workdir workspace r s.workspace)
    let rest ← traceSteps workdir r.root workspace ss
    return (s, r) :: rest

/-- The setup and the steps of a stage: the directory that its workspace starts as, and the runs. -/
def traceRuns (b : BaseConfig) (s : StageConfig) (start : State) :
    Build GraphError (State × List (StepConfig × RunResult)) := do
  let current ← s.setup.foldlM plainCommand start
  let context ← localDir b.context
  let runs ← traceSteps b.workdir current context s.steps
  return (context, runs)

/-- The result of a stage whose last run is known, if there was one. -/
def resultOf (s : StageConfig) : Option RunResult → Build PipelineError Stage
  | none => ofExcept (.error (.invalidConfig (.noSteps s.name)))
  | some last => (stageResult s last).mapError (.stage s.name)

def traceStage (b : BaseConfig) (s : StageConfig) : Build PipelineError StageTrace := do
  let start ← (baseState b).mapError .base
  let (context, runs) ← (traceRuns b s start).mapError (.stage s.name)
  let stage ← resultOf s (runs.getLast?.map (·.2))
  return ⟨context, runs, stage⟩

/-- The traces of all stages of a valid config. -/
def traceAll (c : PipelineConfig) : Build PipelineError (List StageTrace) := do
  ofExcept (c.validate.mapError .invalidConfig)
  c.stages.mapM (traceStage c.base)

theorem mapError_bind (f : ε → ε') (b : Build ε α) (h : α → Build ε β) :
    (b >>= h).mapError f = b.mapError f >>= fun a => (h a).mapError f := by
  funext g
  change ((b >>= h).mapError f).run g = (b.mapError f >>= fun a => (h a).mapError f).run g
  simp only [run_bind, run_mapError]
  cases b.run g with
  | mk result g => cases result <;> rfl

theorem mapError_map (f : ε → ε') (h : α → β) (b : Build ε α) :
    (h <$> b).mapError f = h <$> b.mapError f := by
  rw [← bind_pure_comp, ← bind_pure_comp, mapError_bind]
  rfl

/-- The last run is the same with and without a memory. -/
theorem last_foldlM_step (workdir : String) (p : Progress) (ss : List StepConfig) :
    Progress.last <$> ss.foldlM (step workdir) p =
      (fun runs => (runs.getLast?.map (·.2)).or p.last) <$>
        traceSteps workdir p.current p.workspace ss := by
  induction ss generalizing p with
  | nil => rfl
  | cons s ss ih =>
      rw [List.foldlM_cons, step, traceSteps]
      simp only [map_bind, bind_assoc, pure_bind, ih, map_pure]
      refine bind_congr fun r => bind_congr fun workspace => ?_
      rw [← bind_pure_comp]
      refine bind_congr fun runs => congrArg pure ?_
      rw [List.getLast?_cons]
      cases runs.getLast? <;> rfl

theorem last_stageRuns (b : BaseConfig) (s : StageConfig) (start : State) :
    Progress.last <$> stageRuns b s start =
      (fun t => t.2.getLast?.map (·.2)) <$> traceRuns b s start := by
  rw [stageRuns, traceRuns]
  simp only [map_bind, map_pure, last_foldlM_step]
  refine bind_congr fun current => bind_congr fun context => ?_
  rw [← bind_pure_comp]
  refine bind_congr fun runs => congrArg pure ?_
  exact Option.or_none

/-- The trace of a stage belongs to the stage. -/
theorem stage_eq_traceStage (b : BaseConfig) (s : StageConfig) :
    stage b s = StageTrace.stage <$> traceStage b s := by
  have hstage : stage b s = (do
      let start ← (baseState b).mapError .base
      let progress ← (stageRuns b s start).mapError (.stage s.name)
      resultOf s progress.last) := by
    refine bind_congr fun start => bind_congr fun progress => ?_
    cases progress.last <;> rfl
  rw [hstage, traceStage, map_bind]
  refine bind_congr fun start => ?_
  have hlast := congrArg (mapError (PipelineError.stage s.name)) (last_stageRuns b s start)
  rw [mapError_map, mapError_map] at hlast
  have hresult := congrArg (· >>= resultOf s) hlast
  simp only [bind_map_left] at hresult
  rw [hresult, map_bind]
  refine bind_congr fun t => ?_
  simp only [map_bind, map_pure, bind_pure]

theorem mapM_map_eq {f : α → Build ε β} {γ : Type} (h : β → γ) (xs : List α) :
    xs.mapM (fun x => h <$> f x) = List.map h <$> xs.mapM f := by
  induction xs with
  | nil => rfl
  | cons x xs ih => simp [ih]

/-- The traces of all stages belong to the pipeline. -/
theorem assemble_eq_traceAll (c : PipelineConfig) :
    assemble c = (fun traces => ⟨traces.map (·.stage)⟩) <$> traceAll c := by
  rw [assemble, traceAll, map_bind]
  refine bind_congr fun _ => ?_
  have hstages : stage c.base = fun s => StageTrace.stage <$> traceStage c.base s :=
    funext (stage_eq_traceStage c.base)
  rw [hstages, mapM_map_eq, bind_map_left, bind_pure_comp]

end Build

end BuildGraph
