import BuildGraph.Export.Compile
import BuildGraph.Proofs.Definition.Emission
import BuildGraph.Proofs.Definition.Lasting
import BuildGraph.Proofs.Graph.Repeats

/-!
# Building twice

Nothing in a pipeline is kept apart from the graph, so it is assembled twice at the price of once: every part of
`assemble` gives states of the graph, which is all that the next part asks for, and the same holds of the merge of the
stages and of the export. `replay_adds_nothing` says it of these and of programs of single calls.
-/

namespace BuildGraph

namespace Build

variable {g : Graph}

theorem repeats_command {base : State} (hbase : g.check base = .ok ()) {mounts : List Mount}
    (hmounts : ∀ m ∈ mounts, g.check m.source = .ok ()) (line : String) (env : StringMap) :
    (command base line mounts env).Repeats g fun g' r => (Answer.run r).Held g' := by
  refine (repeats_ofExcept _ g).bind fun options g' hgrows _ => repeats_exec ?_ ?_
  · exact Graph.genuine_of_check (hgrows.check hbase)
  · exact fun m hm => Graph.genuine_of_check (hgrows.check (hmounts m hm))

theorem repeats_plainCommand {base : State} (hbase : g.check base = .ok ()) (line : String) :
    (plainCommand base line).Repeats g GivesState :=
  (repeats_command hbase (fun _ hm => absurd hm List.not_mem_nil) line .empty).bind_pure
    fun r _ _ hr => hr _ (.root r)

theorem repeats_baseState (b : BaseConfig) (g : Graph) : (baseState b).Repeats g GivesState := by
  refine (repeats_image b.image g).bind fun image g₁ _ himage => ?_
  have hdir : g₁.check (image.withDir b.workdir) = .ok () := himage
  refine (repeats_plainCommand hdir _).bind fun system g₂ _ hsystem => ?_
  refine (repeats_localDir b.context g₂).bind fun context g₃ h₃ hcontext => ?_
  have hgenuine := Graph.genuine_of_check hcontext
  refine (repeats_copy hgenuine g₃.genuine_scratch _ _ _).bind fun manifest g₄ h₄ hmanifest => ?_
  refine (repeats_command (h₄.check (h₃.check hsystem)) ?_ _ _).bind_pure fun r _ _ hr => hr _ (.root r)
  exact List.forall_mem_singleton.2 hmanifest

/-- Where a stage is are states of the graph, and so is what its last run has left. -/
structure Progress.Held (g : Graph) (p : Progress) : Prop where
  current : g.check p.current = .ok ()
  workspace : g.check p.workspace = .ok ()
  last : ∀ r, p.last = some r → (Answer.run r).Held g

theorem source_stepMounts {workdir : String} {workspace : State} {mode : WorkspaceMode} {m : Mount}
    (h : m ∈ stepMounts workdir workspace mode) : m.source = workspace := by
  cases mode with
  | none => cases h
  | readWrite | readOnly => rw [List.mem_singleton.1 h]

theorem repeats_step (workdir : String) {p : Progress} (hp : p.Held g) (s : StepConfig) :
    (step workdir p s).Repeats g fun g' p' => p'.Held g' := by
  have hmounts : ∀ m ∈ stepMounts workdir p.workspace s.workspace, g.check m.source = .ok () := by
    intro m hm
    rw [source_stepMounts hm]
    exact hp.workspace
  refine (repeats_command hp.current hmounts s.run s.env).bind fun r g₁ h₁ hr => ?_
  refine (repeats_ofExcept _ g₁).bind_pure fun workspace g₂ h₂ hworkspace => ?_
  refine ⟨h₂.check (hr _ (.root r)), ?_, ?_⟩
  · cases hmode : s.workspace with
    | readWrite =>
        rw [hmode] at hworkspace
        exact h₂.check (hr _ (.mount hworkspace))
    | readOnly | none =>
        rw [hmode] at hworkspace
        obtain rfl := Except.ok.inj hworkspace
        exact (h₁.trans h₂).check hp.workspace
  · rintro r' ⟨⟩
    exact hr.grow h₂

theorem repeats_stageRuns (b : BaseConfig) (s : StageConfig) {start : State} (hstart : g.check start = .ok ()) :
    (stageRuns b s start).Repeats g fun g' p => p.Held g' := by
  have hsetup : (s.setup.foldlM plainCommand start).Repeats g GivesState :=
    repeats_foldlM (fun _ line _ _ _ hbase => repeats_plainCommand hbase line) hstart
  refine hsetup.bind fun current g₁ _ hcurrent => ?_
  refine (repeats_localDir b.context g₁).bind fun workspace g₂ h₂ hworkspace => ?_
  exact repeats_foldlM (fun _ step _ _ _ hp => repeats_step b.workdir hp step)
    ⟨h₂.check hcurrent, hworkspace, nofun⟩

theorem repeats_stageResult (s : StageConfig) {last : RunResult} (hlast : (Answer.run last).Held g) :
    (stageResult s last).Repeats g fun g' stage => g'.check stage.state = .ok () := by
  have hholder := Graph.genuine_of_check (hlast _ (.holder last s.output))
  exact (repeats_copy hholder g.genuine_scratch _ _ _).bind_pure fun _ _ _ hstate => hstate

theorem repeats_stage (b : BaseConfig) (s : StageConfig) (g : Graph) :
    (stage b s).Repeats g fun g' stage => g'.check stage.state = .ok () := by
  refine ((repeats_baseState b g).mapError _).bind fun start g₁ _ hstart => ?_
  refine ((repeats_stageRuns b s hstart).mapError _).bind fun progress g₂ _ hprogress => ?_
  cases hlast : progress.last with
  | none => exact (repeats_ofExcept _ g₂).imp nofun
  | some last => exact (repeats_stageResult s (hprogress.last last hlast)).mapError _

/-- A config is assembled to states of the graph, each time to the same ones. -/
theorem repeats_assemble (c : PipelineConfig) (g : Graph) :
    (assemble c).Repeats g fun g' p => ∀ s ∈ p.states, g'.check s = .ok () := by
  refine (repeats_ofExcept _ g).bind fun _ g₁ _ _ => ?_
  have hstages : (c.stages.mapM (stage c.base)).Repeats g₁ fun g' stages =>
      ∀ stage ∈ stages, g'.check stage.state = .ok () := by
    refine repeats_mapM ?_ fun s _ g' _ => repeats_stage c.base s g'
    exact fun hgrows hstage => hgrows.check hstage
  exact hstages.bind_pure fun stages _ _ hheld => List.forall_mem_map.2 hheld

theorem repeats_mergeStages {p : Pipeline} (hp : ∀ s ∈ p.states, g.Genuine s) :
    (mergeStages p).Repeats g fun g' merged => g'.check merged.state = .ok () :=
  (repeats_merge hp).bind_pure fun _ _ _ hstate => hstate

theorem repeats_exportPipeline {p : Pipeline} (hp : ∀ s ∈ p.states, g.Genuine s) (platform : Platform) :
    (exportPipeline p platform).Repeats g fun _ _ => True := by
  refine ((repeats_mergeStages hp).mapError _).bind fun merged g₁ _ hmerged => ?_
  have hmarshal : ∀ g', g₁.GrowsTo g' →
      (marshal g' merged.state platform).mapError ExportError.marshal =
        (marshal g₁ merged.state platform).mapError ExportError.marshal := by
    intro g' hgrows
    rw [(Graph.genuine_of_check hmerged).marshal_grown hgrows]
  refine (repeats_inspect hmarshal).bind fun definition g₂ _ _ => ?_
  exact (repeats_ofExcept _ g₂).bind_pure fun _ _ _ _ => trivial

theorem repeats_compile (c : PipelineConfig) (platform : Platform) (g : Graph) :
    (Build.compile c platform).Repeats g fun _ _ => True :=
  ((repeats_assemble c g).mapError _).bind fun _ _ _ hp =>
    repeats_exportPipeline (fun s hs => Graph.genuine_of_check (hp s hs)) platform

end Build

/-- A program that is run again, behind itself and any further calls, is answered as it was, call by call, and leaves
the graph as it is; and so it is with the assembly of a config, with the merge and the export of a pipeline and with the
two together. -/
theorem replay_adds_nothing {g : Graph} {known : State → Prop} (hknown : ∀ s, known s → g.Genuine s) :
    (∀ p : Program, p.Uses known → p.build.Replays g) ∧
      (∀ c, (Build.assemble c).Replays g) ∧
      (∀ p : Pipeline, (∀ s ∈ p.states, known s) →
        (Build.mergeStages p).Replays g ∧ ∀ platform, (Build.exportPipeline p platform).Replays g) ∧
      ∀ c platform, (Build.compile c platform).Replays g := by
  refine ⟨fun p hp => (hp.repeats hknown).replays, fun c => (Build.repeats_assemble c g).replays, fun p hp => ?_,
    fun c platform => (Build.repeats_compile c platform g).replays⟩
  have hgenuine : ∀ s ∈ p.states, g.Genuine s := fun s hs => hknown s (hp s hs)
  exact ⟨(Build.repeats_mergeStages hgenuine).replays,
    fun platform => (Build.repeats_exportPipeline hgenuine platform).replays⟩

/-- Tests what is known, with a directory for the log, and copies the log to where it was run. Then there is a copy out
of another graph, which is refused. -/
def testProgram (base : State) : Program :=
  .call (.exec (base.withDir "/src")
      { RunOptions.ofArgs ["make", "test"] with mounts := [⟨"/log", .scratch, none, false⟩] }) fun
    | .ok (.run r) =>
        match r.mount "/log" with
        | .ok log =>
            .call (.copy log "/" (r.root.withEnv "CI" "1") "/log" .plain) fun _ =>
              .call (.copy (.ofOutput ⟨⟨1⟩, 0, 0⟩) "/a" base "/a" .plain) fun _ => .done
        | .error _ => .done
    | .ok (.state _) | .error _ => .done

/-- What the test program starts from: a state to test, and one of another graph. -/
def testInputs (s : State) : Prop := s = sampleState 2 0 ∨ s = .ofOutput ⟨⟨1⟩, 0, 0⟩

theorem genuine_testInputs (s : State) (h : testInputs s) : sampleGraph.Genuine s := by
  rcases h with rfl | rfl
  · exact Graph.genuine_of_check rfl
  · rintro o ⟨⟩ hid
    cases hid

theorem uses_testProgram : (testProgram (sampleState 2 0)).Uses testInputs := by
  refine .call ?_ fun result => ?_
  · intro s hs
    rcases List.mem_cons.1 hs with rfl | hs
    · exact .withDir (.known (.inl rfl)) _
    · rw [List.mem_singleton.1 hs]
      exact .scratch
  · rcases result with e | s | r
    · exact .done
    · exact .done
    · dsimp only
      cases hlog : r.mount "/log" with
      | error e => exact .done
      | ok log =>
          refine .call ?_ fun _ => .call ?_ fun _ => .done
          · refine List.forall_mem_cons.2 ⟨.known (.inr ⟨_, rfl, .mount hlog⟩), List.forall_mem_singleton.2 ?_⟩
            exact .withEnv (.known (.inr ⟨_, rfl, .root r⟩)) _ _
          · exact List.forall_mem_cons.2 ⟨.known (.inl (.inl (.inr rfl))),
              List.forall_mem_singleton.2 (.known (.inl (.inl (.inl rfl))))⟩

/-- The first run of the program adds two vertices and is refused a third; behind that it adds nothing. -/
theorem replay_adds_nothing_test :
    ((testProgram (sampleState 2 0)).build.run sampleGraph).2.size = sampleGraph.size + 2 ∧
      (testProgram (sampleState 2 0)).build.Replays sampleGraph ∧
      (Build.mergeStages ⟨[⟨"build", sampleState 2 0, "/", "/out"⟩,
        ⟨"other", .ofOutput ⟨⟨1⟩, 0, 0⟩, "/", "/other"⟩]⟩).Replays sampleGraph := by
  obtain ⟨hprograms, -, hpipelines, -⟩ := replay_adds_nothing (g := sampleGraph) genuine_testInputs
  refine ⟨rfl, hprograms _ uses_testProgram, (hpipelines _ ?_).1⟩
  exact List.forall_mem_cons.2 ⟨.inl rfl, List.forall_mem_singleton.2 (.inr rfl)⟩

end BuildGraph
