import BuildGraph.Export.Compile
import BuildGraph.Proofs.Definition.Emission
import BuildGraph.Proofs.Definition.Order

/-!
# What is marshaled is accepted

Marshaling and the check of a definition are two passes that know nothing of each other. Here they meet: an
emission is a listing, so the definition of a state is well formed. Its digests differ because its vertices do,
and the outputs that it reads are there because the graph has them.

An export merges the stages by one call and marshals the result, so its last step cannot fail.
-/

namespace BuildGraph

variable {g : Graph}

/-- The operation of an output has been emitted, and has the output. -/
theorem Graph.Emission.provides {done : Emitted} (h : g.Emission done) {o : Output} (ho : g.HasOutput o)
    {d : DefinitionOp} (hd : done.lookup o.vertex = some d) :
    Provides (done.map (·.2)) ⟨d.digest, o.index⟩ := by
  have hmem := mem_of_lookup hd
  obtain ⟨v, refs, hv, -, -, rfl⟩ := h.body hmem
  obtain ⟨-, w, hw, hindex⟩ := ho
  obtain rfl : v = w := Option.some.inj (hv.symm.trans hw)
  exact ⟨_, List.mem_map_of_mem hmem, rfl, hindex⟩

/-- An emission of vertices that differ, with digests that tell them apart, is a listing. -/
theorem Graph.Emission.listing (hg : g.Sound) {done : Emitted} (h : g.Emission done)
    (hkeys : (done.map (·.1)).Nodup)
    (hinj : ∀ e ∈ done, ∀ e' ∈ done, e.2.digest = e'.2.digest → e.1 = e'.1) :
    Listing (done.map (·.2)) := by
  induction h with
  | nil => exact .nil
  | @snoc done last v refs h hv hvalid hrefs ih =>
      have hinj' : ∀ e ∈ done, ∀ e' ∈ done, e.2.digest = e'.2.digest → e.1 = e'.1 :=
        fun e he e' he' => hinj e (List.mem_append_left _ he) e' (List.mem_append_left _ he')
      rw [List.map_append, List.nodup_append] at hkeys
      obtain ⟨hkeys, -, hdisjoint⟩ := hkeys
      rw [List.map_append]
      refine .snoc (ih hkeys hinj') rfl ?_ ?_ ?_
      · rwa [hrefs.length_eq] at hvalid
      · intro p hp heq
        obtain ⟨e, he, rfl⟩ := List.mem_map.1 hp
        have hlast : (last, DefinitionOp.ofBody refs v.op) ∈ done ++ [(last, .ofBody refs v.op)] :=
          List.mem_append_right _ (List.mem_singleton_self _)
        exact hdisjoint e.1 (List.mem_map_of_mem he) last (List.mem_singleton_self _)
          (hinj e (List.mem_append_left _ he) _ hlast heq)
      · intro r hr
        obtain ⟨o, ho, href⟩ := exists_of_mem_right hrefs hr
        obtain ⟨d, hd, rfl⟩ := inputRef_eq_ok_iff.1 href
        exact h.provides (hg.inputs last v hv o ho).2 hd

/-- The definition of a state of a sound graph is well formed. -/
theorem wellFormed_marshal (hg : g.Sound) {s : State} {platform : Platform} {d : Definition}
    (h : marshal g s platform = .ok d) (hc : CollisionFree d.encodings) : d.WellFormed := by
  cases hs : s.output with
  | none =>
      rw [marshal_scratch g hs, Except.ok.injEq] at h
      subst h
      refine ⟨.nil, fun r hr => ?_⟩
      cases hr
  | some o =>
      obtain ⟨ho, emitted, top, hemission, hkeys, -, htop, rfl⟩ := marshal_eq_ok hg hs h
      have hinj := hemission.vertex_inj hg hc fun e he =>
        List.mem_map.2 ⟨e.2, List.mem_map.2 ⟨e, he, rfl⟩, rfl⟩
      refine ⟨hemission.listing hg hkeys hinj, fun r hr => ?_⟩
      obtain rfl := Option.some.inj hr
      exact hemission.provides ho htop

namespace Build

theorem snd_run_mergeStages (p : Pipeline) (g : Graph) :
    ((mergeStages p).run g).2 = (Call.merge p.states).next g := by
  rw [mergeStages, run_bind, Call.next]
  split <;> rename_i h <;> rw [h]
  rfl

/-- Only the check of the definition of the merged stages gives an error of the check. -/
theorem of_exportPipeline_eq_dag {p : Pipeline} {platform : Platform} {g : Graph} {e : DagError}
    (h : ((exportPipeline p platform).run g).1 = .error (.dag e)) :
    ∃ merged d, ((mergeStages p).run g).1 = .ok merged ∧
      marshal ((mergeStages p).run g).2 merged.state platform = .ok d ∧
      Dag.ofDefinition d = .error e := by
  rw [exportPipeline, run_bind, run_mapError] at h
  cases hmerge : ((mergeStages p).run g).1 with
  | error e' =>
      rw [hmerge] at h
      cases h
  | ok merged =>
      simp only [hmerge, Except.mapError, run_bind, run_inspect, run_ofExcept] at h
      cases hmarshal : marshal ((mergeStages p).run g).2 merged.state platform with
      | error e' =>
          rw [hmarshal] at h
          cases h
      | ok d =>
          simp only [hmarshal] at h
          cases hcheck : Dag.ofDefinition d with
          | error e' =>
              rw [hcheck] at h
              cases h
              exact ⟨merged, d, rfl, hmarshal, hcheck⟩
          | ok dag =>
              rw [hcheck] at h
              cases h

end Build

/-- Where SHA-256 does not collide on the encodings of its operations, the definition of a state of a graph that
calls lead to is accepted, and so is that of a pipeline: no export fails at the check. -/
theorem ofDefinition_marshal (hg : g.Reachable) (platform : Platform) :
    (∀ s d, marshal g s platform = .ok d → CollisionFree d.encodings →
      ∃ dag, Dag.ofDefinition d = .ok dag) ∧
    ∀ p : Pipeline,
      (∀ merged d, ((Build.mergeStages p).run g).1 = .ok merged →
        marshal ((Build.mergeStages p).run g).2 merged.state platform = .ok d →
        CollisionFree d.encodings) →
      ∀ e, ((Build.exportPipeline p platform).run g).1 ≠ .error (.dag e) := by
  constructor
  · intro s d h hc
    exact ⟨_, Dag.ofDefinition_eq_ok_iff.2 ⟨wellFormed_marshal hg.sound h hc, rfl⟩⟩
  · intro p hc e h
    have hmerged : ((Build.mergeStages p).run g).2.Sound := by
      rw [Build.snd_run_mergeStages]
      exact (hg.call _).sound
    obtain ⟨merged, d, hmerge, hmarshal, hcheck⟩ := Build.of_exportPipeline_eq_dag h
    have hwellFormed := wellFormed_marshal hmerged hmarshal (hc merged d hmerge hmarshal)
    rw [Dag.ofDefinition_eq_ok_iff.2 ⟨hwellFormed, rfl⟩] at hcheck
    cases hcheck

/-- A pipeline of one stage, whose result is that of the example. -/
def samplePipeline : Pipeline := ⟨[⟨"build", sampleState 2 1, "/src", "/out/build"⟩]⟩

theorem ofDefinition_marshal_sample :
    sampleGraph.Reachable ∧ marshal sampleGraph (sampleState 2 1) .target = .ok sampleDefinition ∧
      CollisionFree sampleDefinition.encodings ∧ (∃ dag, Dag.ofDefinition sampleDefinition = .ok dag) ∧
      ∀ e, ((Build.exportPipeline samplePipeline .target).run sampleGraph).1 ≠ .error (.dag e) := by
  obtain ⟨hstate, hpipeline⟩ := ofDefinition_marshal reachable_sample .target
  refine ⟨reachable_sample, marshal_sample, collisionFree_sample,
    hstate _ _ marshal_sample collisionFree_sample, hpipeline samplePipeline ?_⟩
  intro merged d hmerge hmarshal
  have hrun : (Build.mergeStages samplePipeline).run sampleGraph =
      (.ok ⟨sampleState 2 1, samplePipeline.stages.map .ofStage⟩, sampleGraph) := rfl
  rw [hrun] at hmerge hmarshal
  obtain rfl := Except.ok.inj hmerge
  rw [marshal_sample] at hmarshal
  obtain rfl := Except.ok.inj hmarshal
  exact collisionFree_sample

end BuildGraph
