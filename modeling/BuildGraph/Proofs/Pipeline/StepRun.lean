import BuildGraph.Proofs.Path.Normal
import BuildGraph.Proofs.Pipeline.Trace

/-!
# Steps that have been run

A step leaves a vertex, outputs, and what can be asked of them. What is left does not depend on the graph that
the step was run in, only on the mode in which it saw the workspace (`StepRan`): a step that could change the
workspace has its output 1 at the work directory, one that only looked at it has no output there. A copy out of
an output leaves that output and the path in its vertex (`Graph.copySource?`).
-/

namespace BuildGraph

/-- What a copy takes, as an output of the graph and a path in it. -/
def Graph.copySource? (g : Graph) (s : State) : Option (Output × String) := do
  let o ← s.output
  let v ← g.vertex? o.vertex
  match v.op with
  | .copy c => do
    let index ← c.srcInput
    let source ← v.inputs[index]?
    return (source, c.src)
  | .source _ | .exec _ | .merge _ => none

/-- A step has been run: its vertex is an exec, and it has the mounts that go with its mode. -/
structure StepRan (workdir : String) (g : Graph) (s : StepConfig) (r : RunResult) : Prop where
  vertex : ∃ e inputs, g.vertex? r.vertex = some ⟨.exec e, inputs⟩
  root : r.root.output = some ⟨r.graph, r.vertex, 0⟩
  mounts : ∃ workspace, r.mounts = mountResults 1 (Build.stepMounts workdir workspace s.workspace)

namespace StepRan

variable {workdir path rest : String} {g g' : Graph} {s : StepConfig} {r : RunResult}

theorem grow (h : StepRan workdir g s r) (hg : g.GrowsTo g') : StepRan workdir g' s r where
  vertex := by
    obtain ⟨e, inputs, hv⟩ := h.vertex
    exact ⟨e, inputs, hg.vertex? hv⟩
  root := h.root
  mounts := h.mounts

theorem mount_readWrite (h : StepRan workdir g s r) (hs : s.workspace = .readWrite) :
    r.mount workdir = .ok (r.output 1) := by
  obtain ⟨workspace, hmounts⟩ := h.mounts
  rw [hs] at hmounts
  simp [RunResult.mount, hmounts, Build.stepMounts, mountResults]

theorem holder_readWrite (h : StepRan workdir g s r) (hs : s.workspace = .readWrite)
    (hpath : Path.stripBase? path workdir = some rest) : r.holder path = (r.output 1, rest) := by
  obtain ⟨workspace, hmounts⟩ := h.mounts
  rw [hs] at hmounts
  simp [RunResult.holder, hmounts, Build.stepMounts, mountResults, MountResult.holder?, hpath, deepest?]

theorem holder_readOnly (h : StepRan workdir g s r) (hs : s.workspace = .readOnly) :
    r.holder path = (r.root, Path.normalize path) := by
  obtain ⟨workspace, hmounts⟩ := h.mounts
  rw [hs] at hmounts
  have hnone : MountResult.holder? path ⟨workdir, none⟩ = none := rfl
  simp [RunResult.holder, hmounts, Build.stepMounts, mountResults, hnone, deepest?]

end StepRan

namespace Build

theorem run_command_eq_ok {base : State} {line : String} {mounts : List Mount} {env : StringMap}
    {g g' : Graph} {r : RunResult} (h : (command base line mounts env).run g = (.ok r, g')) :
    (∃ e inputs, g'.vertex? r.vertex = some ⟨.exec e, inputs⟩) ∧
      r.root.output = some ⟨r.graph, r.vertex, 0⟩ ∧ r.mounts = mountResults 1 mounts := by
  obtain ⟨options, g₁, -, h⟩ := run_bind_eq_ok_iff.1 h
  rw [run_exec] at h
  obtain ⟨rfl, rfl⟩ := Graph.accept_eq_ok h
  exact ⟨⟨_, _, Graph.vertex?_intern _ _⟩, rfl, rfl⟩

theorem run_localDir_eq_ok {name : String} {g g' : Graph} {s : State}
    (h : (localDir name).run g = (.ok s, g')) :
    ∃ o src, s.output = some o ∧ o.index = 0 ∧ g'.vertex? o.vertex = some ⟨.source src, []⟩ := by
  rw [run_localDir] at h
  obtain ⟨rfl, rfl⟩ := Graph.accept_eq_ok h
  exact ⟨_, _, rfl, rfl, Graph.vertex?_intern _ _⟩

/-- What is copied into the empty filesystem is the state and the path that were asked for. -/
theorem copySource?_copy {src : State} {srcPath destPath : String} {flags : CopyFlags} {g g' : Graph}
    {s : State} (h : (copy src srcPath .scratch destPath flags).run g = (.ok s, g')) {o : Output}
    (ho : src.output = some o) : g'.copySource? s = some (o, resolve src.dir srcPath) := by
  rw [run_copy] at h
  obtain ⟨rfl, rfl⟩ := Graph.accept_eq_ok h
  simp only [Graph.copySource?, Graph.output, Option.bind_eq_bind, Option.bind_some,
    Graph.vertex?_intern]
  simp [copyVertex, slot, State.scratch, ho]

/-- A path in normal form is the same from everywhere. -/
theorem resolve_of_normal {path : String} (habsolute : Path.isAbsolute path.toList = true)
    (hnormal : Path.normalize path = path) (dir : String) : resolve dir path = path := by
  have hne : path ≠ "" := by
    rintro rfl
    cases habsolute
  rw [resolve, if_neg hne, Path.join, if_pos habsolute, hnormal]

theorem grows_traceSteps (workdir : String) (current workspace : State) (ss : List StepConfig) :
    (traceSteps workdir current workspace ss).Grows := by
  induction ss generalizing current workspace with
  | nil => exact grows_pure []
  | cons s ss ih =>
      refine (grows_command _ _ _ _).bind fun r => (grows_ofExcept _).bind fun workspace => ?_
      exact (ih r.root workspace).bind fun _ => grows_pure _

theorem grows_resultOf (s : StageConfig) (last : Option RunResult) : (resultOf s last).Grows := by
  cases last with
  | none => exact grows_ofExcept _
  | some last => exact (grows_stageResult s last).mapError _

theorem grows_traceStage (b : BaseConfig) (s : StageConfig) : (traceStage b s).Grows := by
  refine ((grows_baseState b).mapError _).bind fun start => ?_
  refine Grows.bind (Grows.mapError ?_ _) fun t => (grows_resultOf s _).bind fun _ => grows_pure _
  refine (grows_foldlM (fun _ _ => grows_plainCommand _ _) _ _).bind fun current => ?_
  refine (grows_localDir _).bind fun context => ?_
  exact (grows_traceSteps _ _ _ _).bind fun _ => grows_pure _

/-- The trace has a run for every step, in their order. -/
theorem stepRan_traceSteps {workdir : String} {current workspace : State} {ss : List StepConfig}
    {runs : List (StepConfig × RunResult)} {g g' : Graph}
    (h : (traceSteps workdir current workspace ss).run g = (.ok runs, g')) :
    runs.map (·.1) = ss ∧ ∀ e ∈ runs, StepRan workdir g' e.1 e.2 := by
  induction ss generalizing current workspace runs g with
  | nil =>
      cases h
      exact ⟨rfl, fun e he => absurd he List.not_mem_nil⟩
  | cons s ss ih =>
      rw [traceSteps] at h
      obtain ⟨r, g₁, hrun, hbehind⟩ := run_bind_eq_ok_iff.1 h
      obtain ⟨next, g₂, hnext, hbehind⟩ := run_bind_eq_ok_iff.1 hbehind
      obtain ⟨rest, g₃, hrest, hdone⟩ := run_bind_eq_ok_iff.1 hbehind
      cases hdone
      rw [(run_ofExcept_eq_ok_iff.1 hnext).2] at hrest
      obtain ⟨hsteps, hran⟩ := ih hrest
      have hgrows : g₁.GrowsTo g' := by
        have hgrows := grows_traceSteps workdir r.root next ss g₁
        rwa [hrest] at hgrows
      obtain ⟨hvertex, hroot, hmounts⟩ := run_command_eq_ok hrun
      have hfirst : StepRan workdir g' s r := StepRan.grow ⟨hvertex, hroot, workspace, hmounts⟩ hgrows
      exact ⟨by rw [List.map_cons, hsteps], List.forall_mem_cons.2 ⟨hfirst, hran⟩⟩

end Build

end BuildGraph
