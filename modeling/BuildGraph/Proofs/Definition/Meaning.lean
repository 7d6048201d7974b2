import BuildGraph.Proofs.Definition.Emission
import BuildGraph.Proofs.Definition.Semantics

/-!
# Marshaling keeps the meaning

The definition of a state of a graph stands for the filesystem that the state stands for, whatever operations
mean. Along an emission the results are those of the vertices (`runAll_emission`): an input is looked up by a
digest that no other vertex in front has. If an operation fails then its vertex does, and so does the root, which
needs it.
-/

namespace BuildGraph

variable {F : Type} {g : Graph}

/-- The results of a list of operations are looked up by digests that belong to one vertex each. -/
theorem lookup_results {f : Nat → Option (List F)} {done : Emitted} {results : Results F}
    (h : done.mapM (fun e => (f e.1).map fun outputs => (e.2.digest, outputs)) = some results)
    {e : Nat × DefinitionOp} (he : e ∈ done)
    (hinj : ∀ e' ∈ done, e'.2.digest = e.2.digest → e'.1 = e.1) :
    results.lookup e.2.digest = f e.1 := by
  induction done generalizing results with
  | nil => cases he
  | cons a done ih =>
      rw [List.mapM_cons] at h
      obtain ⟨result, hresult, h⟩ := Option.bind_eq_some_iff.1 h
      obtain ⟨rest, hrest, h⟩ := Option.bind_eq_some_iff.1 h
      obtain rfl : result :: rest = results := Option.some.inj h
      obtain ⟨outputs, houtputs, rfl⟩ := Option.map_eq_some_iff.1 hresult
      by_cases hdigest : a.2.digest = e.2.digest
      · rw [hdigest, List.lookup_cons_self, ← hinj a List.mem_cons_self hdigest, houtputs]
      · rw [List.lookup_cons, beq_false_of_ne (Ne.symm hdigest)]
        have hne : e ≠ a := fun h => hdigest (h ▸ rfl)
        exact ih hrest (List.mem_of_ne_of_mem hne he)
          fun e' he' => hinj e' (List.mem_cons_of_mem _ he')

/-- An input is fetched by its digest where it has been emitted. -/
theorem fetch_results {I : Interpretation F} {done : Emitted} {results : Results F}
    (h : done.mapM (fun e => (g.evalVertex I e.1).map fun outputs => (e.2.digest, outputs)) =
      some results)
    (hinj : ∀ e ∈ done, ∀ e' ∈ done, e.2.digest = e'.2.digest → e.1 = e'.1)
    {o : Output} {r : InputRef} (hr : inputRef done o = .ok r) :
    results.fetch r = g.evalOutput I o := by
  obtain ⟨d, hd, rfl⟩ := inputRef_eq_ok_iff.1 hr
  have hmem := mem_of_lookup hd
  have hlookup := lookup_results h hmem fun e' he' => hinj e' he' _ hmem
  rw [Results.fetch, Graph.evalOutput]
  exact congrArg (Option.bind · (·[o.index]?)) hlookup

/-- Along an emission the results are those of the vertices. -/
theorem runAll_emission (hg : g.Sound) (I : Interpretation F) {done : Emitted} (h : g.Emission done)
    (hinj : ∀ e ∈ done, ∀ e' ∈ done, e.2.digest = e'.2.digest → e.1 = e'.1) :
    I.runAll [] (done.map (·.2)) =
      done.mapM fun e => (g.evalVertex I e.1).map fun outputs => (e.2.digest, outputs) := by
  induction h with
  | nil => rfl
  | @snoc done last v refs h hv hvalid hrefs ih =>
      have hinj' : ∀ e ∈ done, ∀ e' ∈ done, e.2.digest = e'.2.digest → e.1 = e'.1 :=
        fun e he e' he' => hinj e (List.mem_append_left _ he) e' (List.mem_append_left _ he')
      rw [List.map_append, I.runAll_append, ih hinj', List.mapM_append]
      refine Option.bind_congr fun results hresults => ?_
      have hfetch : refs.mapM results.fetch = v.inputs.mapM (g.evalOutput I) := by
        refine (mapM_eq_mapM_of_forall₂ (hrefs.imp fun o r hr => ?_)).symm
        exact (fetch_results hresults hinj' hr).symm
      have hlast := Graph.evalVertex_eq hg I hv
      rw [← hfetch] at hlast
      simp only [List.map_cons, List.map_nil, Interpretation.runAll, List.mapM_cons, List.mapM_nil]
      rw [hlast]
      cases hinputs : refs.mapM results.fetch with
      | none => simp [DefinitionOp.ofBody, hinputs]
      | some inputs =>
          cases houtputs : I.run v.op inputs with
          | none => simp [DefinitionOp.ofBody, hinputs, houtputs]
          | some outputs => simp [DefinitionOp.ofBody, hinputs, houtputs]

/-- Where operations make all their outputs, every emitted vertex has all of its own. -/
theorem exists_evalVertex_eq_some (hg : g.Sound) {I : Interpretation F} (hI : I.Complete)
    {done : Emitted} (h : g.Emission done) :
    ∀ e ∈ done, ∃ v outputs, g.vertex? e.1 = some v ∧ g.evalVertex I e.1 = some outputs ∧
      v.op.outputCount ≤ outputs.length := by
  induction h with
  | nil =>
      intro e he
      cases he
  | @snoc done last v refs h hv hvalid hrefs ih =>
      intro e he
      rcases List.mem_append.1 he with he | he
      · exact ih e he
      rw [List.mem_singleton.1 he]
      cases hinputs : v.inputs.mapM (g.evalOutput I) with
      | none =>
          obtain ⟨o, ho, hnone⟩ := mapM_eq_none_iff.1 hinputs
          obtain ⟨r, -, hr⟩ := exists_of_mem_left hrefs ho
          obtain ⟨d, hd, -⟩ := inputRef_eq_ok_iff.1 hr
          obtain ⟨w, outputs, hw, houtputs, hcount⟩ := ih _ (mem_of_lookup hd)
          obtain ⟨-, w', hw', hindex⟩ := (hg.inputs last v hv o ho).2
          obtain rfl : w = w' := Option.some.inj (hw.symm.trans hw')
          have hlt : o.index < outputs.length := Nat.lt_of_lt_of_le hindex hcount
          rw [Graph.evalOutput, houtputs, Option.bind_some, List.getElem?_eq_getElem hlt] at hnone
          cases hnone
      | some inputs =>
          have hlength := (mapM_eq_some_iff.1 hinputs).length_eq
          rw [hlength] at hvalid
          obtain ⟨picked, hrun⟩ := I.exists_run_eq_some hvalid
          refine ⟨v, I.outputs v.op picked, hv, ?_, hI v.op picked⟩
          rw [Graph.evalVertex_eq hg I hv, hinputs, Option.bind_some, hrun]

/-- The root of a definition with an emission stands for the output that it is the root of. -/
theorem eval_emission (hg : g.Sound) (I : Interpretation F) {done : Emitted} (h : g.Emission done)
    (hinj : ∀ e ∈ done, ∀ e' ∈ done, e.2.digest = e'.2.digest → e.1 = e'.1) {o : Output}
    (hneeds : ∀ e ∈ done, g.Needs o.vertex e.1) {top : DefinitionOp}
    (htop : done.lookup o.vertex = some top) (version : UInt32) (platform : Platform) :
    Definition.eval I ⟨version, done.map (·.2), some ⟨top.digest, o.index⟩, platform⟩ =
      g.evalOutput I o := by
  rw [Definition.eval, runAll_emission hg I h hinj]
  cases hresults : done.mapM fun e => (g.evalVertex I e.1).map fun outputs => (e.2.digest, outputs) with
  | some results =>
      exact fetch_results hresults hinj (inputRef_eq_ok_iff.2 ⟨top, htop, rfl⟩)
  | none =>
      obtain ⟨e, he, hnone⟩ := mapM_eq_none_iff.1 hresults
      have hroot := (hneeds e he).evalVertex_eq_none hg I (Option.map_eq_none_iff.1 hnone)
      rw [Graph.evalOutput, hroot]
      rfl

/-- The definition of a state of a graph that calls lead to stands for the filesystem of the state, provided that
SHA-256 does not collide on the encodings of its operations. Where operations make all their outputs there is
such a filesystem. The empty filesystem has no root. -/
theorem eval_marshal (hg : g.Reachable) (s : State) (platform : Platform) {d : Definition}
    (h : marshal g s platform = .ok d) (hc : CollisionFree d.encodings) (I : Interpretation F) :
    d.eval I = g.evalState I s ∧
      (I.Complete → ∃ filesystem, d.eval I = some filesystem) ∧
      (s.isScratch → d.root = none ∧ d.eval I = some I.empty) := by
  cases hs : s.output with
  | none =>
      rw [marshal_scratch g hs, Except.ok.injEq] at h
      subst h
      have heval : Definition.eval I ⟨Definition.currentVersion, [], none, platform⟩ = some I.empty := rfl
      rw [heval, Graph.evalState, hs]
      exact ⟨rfl, fun _ => ⟨I.empty, rfl⟩, fun _ => ⟨rfl, rfl⟩⟩
  | some o =>
      have hsound := hg.sound
      obtain ⟨ho, emitted, top, hemission, -, hneeds, htop, rfl⟩ := marshal_eq_ok hsound hs h
      have hinj := hemission.vertex_inj hsound hc fun e he =>
        List.mem_map.2 ⟨e.2, List.mem_map.2 ⟨e, he, rfl⟩, rfl⟩
      have heval := eval_emission hsound I hemission hinj
        (fun e he => (hneeds e.1).1 (List.mem_map.2 ⟨e, he, rfl⟩)) htop Definition.currentVersion platform
      rw [heval, Graph.evalState, hs]
      refine ⟨rfl, fun hI => ?_, fun hscratch => ?_⟩
      · obtain ⟨v, outputs, hv, houtputs, hcount⟩ :=
          exists_evalVertex_eq_some hsound hI hemission _ (mem_of_lookup htop)
        obtain ⟨-, v', hv', hindex⟩ := ho
        obtain rfl : v = v' := Option.some.inj (hv.symm.trans hv')
        have hlt : o.index < outputs.length := Nat.lt_of_lt_of_le hindex hcount
        exact ⟨outputs[o.index], by
          rw [Graph.evalOutput, houtputs, Option.bind_some, List.getElem?_eq_getElem hlt]⟩
      · rw [State.isScratch, hs] at hscratch
        cases hscratch

/-- An interpretation in which a filesystem is the text of how it came about. -/
def history : Interpretation String where
  empty := "scratch"
  outputs op inputs :=
    (List.range op.outputCount).map fun index =>
      op.kind ++ "(" ++ ", ".intercalate inputs ++ ")." ++ toString index

theorem complete_history : history.Complete := by
  intro op inputs
  simp [history]

theorem eval_marshal_sample :
    sampleGraph.Reachable ∧ marshal sampleGraph (sampleState 2 1) .target = .ok sampleDefinition ∧
      CollisionFree sampleDefinition.encodings ∧ history.Complete ∧
      sampleDefinition.eval history = sampleGraph.evalState history (sampleState 2 1) ∧
      (∃ filesystem, sampleDefinition.eval history = some filesystem) ∧
      ∃ d, marshal sampleGraph .scratch .target = .ok d ∧ d.root = none ∧ d.eval history = some history.empty := by
  obtain ⟨heval, hsome, -⟩ :=
    eval_marshal reachable_sample (sampleState 2 1) .target marshal_sample collisionFree_sample history
  have hscratch := marshal_scratch sampleGraph (rfl : State.scratch.output = none) .target
  obtain ⟨-, -, hempty⟩ :=
    eval_marshal reachable_sample .scratch .target hscratch (fun _ h => absurd h List.not_mem_nil) history
  exact ⟨reachable_sample, marshal_sample, collisionFree_sample, complete_history, heval,
    hsome complete_history, _, hscratch, hempty rfl⟩

end BuildGraph
