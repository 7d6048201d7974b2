import BuildGraph.Proofs.Pipeline.Recipe
import BuildGraph.Proofs.Pipeline.Trace

/-!
# All runs of a stage

A trace leaves out the setup of a stage. `recordAll` keeps the runs of the setup commands as well, each like that of
a step which does not see the workspace, so a stage has one list of runs, in the order in which it goes through them.
-/

namespace BuildGraph

/-- The runs of the setup commands of a stage, and the trace of its steps. -/
structure StageHistory where
  setup : List (StepConfig × RunResult)
  trace : StageTrace

/-- All runs of a stage. -/
def StageHistory.runs (h : StageHistory) : List RunResult := (h.setup ++ h.trace.runs).map (·.2)

namespace Build

/-- The filesystem that some runs lead to. -/
def lastRoot (start : State) (runs : List (StepConfig × RunResult)) : State :=
  (runs.getLast?.map (·.2.root)).getD start

/-- The setup and the steps of a stage: the runs of the setup, the directory that the workspace starts as, and the
runs of the steps. -/
def recordRuns (b : BaseConfig) (s : StageConfig) (start : State) :
    Build GraphError (List (StepConfig × RunResult) × State × List (StepConfig × RunResult)) := do
  let setup ← traceSteps b.workdir start .scratch (s.setup.map (StepConfig.plain · .none))
  let context ← localDir b.context
  let runs ← traceSteps b.workdir (lastRoot start setup) context s.steps
  return (setup, context, runs)

def recordStage (b : BaseConfig) (s : StageConfig) : Build PipelineError StageHistory := do
  let start ← (baseState b).mapError .base
  let (setup, context, runs) ← (recordRuns b s start).mapError (.stage s.name)
  let stage ← resultOf s (runs.getLast?.map (·.2))
  return ⟨setup, context, runs, stage⟩

/-- The histories of all stages of a valid config. -/
def recordAll (c : PipelineConfig) : Build PipelineError (List StageHistory) := do
  ofExcept (c.validate.mapError .invalidConfig)
  c.stages.mapM (recordStage c.base)

/-- A setup command is like a step that does not see the workspace. -/
theorem foldlM_plainCommand (workdir : String) (start workspace : State) (lines : List String) :
    lines.foldlM plainCommand start =
      lastRoot start <$> traceSteps workdir start workspace (lines.map (StepConfig.plain · .none)) := by
  induction lines generalizing start with
  | nil => rfl
  | cons line lines ih =>
      rw [List.foldlM_cons, List.map_cons, plainCommand, traceSteps]
      simp only [map_bind, bind_assoc, pure_bind, map_pure, ih]
      refine bind_congr fun r => ?_
      change _ = traceSteps workdir r.root workspace _ >>= _
      rw [← bind_pure_comp]
      refine bind_congr fun runs => congrArg pure ?_
      rw [lastRoot, lastRoot, List.getLast?_cons]
      cases runs.getLast? <;> rfl

theorem traceRuns_eq_recordRuns (b : BaseConfig) (s : StageConfig) (start : State) :
    traceRuns b s start = (·.2) <$> recordRuns b s start := by
  rw [traceRuns, recordRuns, foldlM_plainCommand b.workdir start .scratch, bind_map_left, map_bind]
  refine bind_congr fun setup => ?_
  simp only [map_bind, map_pure]

/-- The history of a stage belongs to its trace. -/
theorem traceStage_eq_recordStage (b : BaseConfig) (s : StageConfig) :
    traceStage b s = StageHistory.trace <$> recordStage b s := by
  rw [traceStage, recordStage, map_bind]
  refine bind_congr fun start => ?_
  rw [traceRuns_eq_recordRuns, mapError_map, bind_map_left, map_bind]
  refine bind_congr fun h => ?_
  simp only [map_bind, map_pure]

theorem traceAll_eq_recordAll (c : PipelineConfig) :
    traceAll c = List.map StageHistory.trace <$> recordAll c := by
  have hstages : traceStage c.base = fun s => StageHistory.trace <$> recordStage c.base s :=
    funext (traceStage_eq_recordStage c.base)
  rw [traceAll, recordAll, map_bind, hstages]
  exact bind_congr fun _ => mapM_map_eq _ _

/-- The histories of all stages belong to the pipeline. -/
theorem assemble_eq_recordAll (c : PipelineConfig) :
    assemble c = (fun histories => ⟨histories.map (·.trace.stage)⟩) <$> recordAll c := by
  rw [assemble_eq_traceAll, traceAll_eq_recordAll, Functor.map_map]
  simp only [List.map_map]
  rfl

theorem run_assemble_eq_ok_iff {c : PipelineConfig} {g g' : Graph} {p : Pipeline} :
    (assemble c).run g = (.ok p, g') ↔
      ∃ histories, (recordAll c).run g = (.ok histories, g') ∧ p.stages = histories.map (·.trace.stage) := by
  rw [assemble_eq_recordAll, ← bind_pure_comp, run_bind_eq_ok_iff]
  constructor
  · rintro ⟨histories, g₁, hrun, hdone⟩
    cases hdone
    exact ⟨histories, hrun, rfl⟩
  · rintro ⟨histories, hrun, hp⟩
    refine ⟨histories, g', hrun, ?_⟩
    rw [← hp]
    rfl

end Build

end BuildGraph
