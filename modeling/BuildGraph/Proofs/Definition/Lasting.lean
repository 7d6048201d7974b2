import BuildGraph.Proofs.Definition.Emission
import BuildGraph.Proofs.Graph.Answer

/-!
# Definitions last

What a vertex needs stands in front of it. So the definition of a state can be told from the vertices that are
there when the state is, and it stays the same while the graph grows (`Graph.Genuine.marshal_grown`). If there is
none, the error stays the same. Nothing is assumed of the graph, nor of the calls that let it grow (`marshal_calls`).
-/

namespace BuildGraph

namespace Graph

variable {g g' : Graph}

theorem GrowsTo.vertex?_eq (h : g.GrowsTo g') {m : Nat} (hm : m < g.size) : g'.vertex? m = g.vertex? m := by
  have hv : g.vertex? m = some _ := List.getElem?_eq_getElem hm
  rw [hv, h.vertex? hv]

theorem GrowsTo.sweep_eq (h : g.GrowsTo g') {n : Nat} (hn : n ≤ g.size) (wanted found : List Nat) :
    sweep g' n wanted found = sweep g n wanted found := by
  induction n generalizing wanted found with
  | zero => rfl
  | succ n ih =>
      have hbelow := ih (Nat.le_of_succ_le hn)
      rw [sweep, sweep, h.vertex?_eq hn]
      simp only [hbelow]

/-- What is found on the way down has been passed. -/
theorem lt_of_mem_sweep {n : Nat} {wanted found l : List Nat} (h : sweep g n wanted found = .ok l)
    (hfound : ∀ m ∈ found, m < g.size) (hn : n ≤ g.size) : ∀ m ∈ l, m < g.size := by
  induction n generalizing wanted found with
  | zero =>
      cases h
      exact hfound
  | succ n ih =>
      rw [sweep] at h
      split at h
      · split at h
        · cases h
        · split at h
          · cases h
          · exact ih h (List.forall_mem_cons.2 ⟨hn, hfound⟩) (Nat.le_of_succ_le hn)
      · exact ih h hfound (Nat.le_of_succ_le hn)

theorem GrowsTo.emit_eq (h : g.GrowsTo g') {vertices : List Nat} (hvertices : ∀ m ∈ vertices, m < g.size)
    (done : Emitted) : emit g' done vertices = emit g done vertices := by
  induction vertices generalizing done with
  | nil => rfl
  | cons vertex rest ih =>
      obtain ⟨hvertex, hrest⟩ := List.forall_mem_cons.1 hvertices
      rw [emit, emit, h.vertex?_eq hvertex]
      simp only [ih hrest]

/-- A state that can be had is marshaled as before when the graph has grown. -/
theorem Genuine.marshal_grown {s : State} (hs : g.Genuine s) (h : g.GrowsTo g') (platform : Platform) :
    marshal g' s platform = marshal g s platform := by
  rw [marshal, marshal]
  cases ho : s.output with
  | none => rfl
  | some o =>
      dsimp only
      rw [hs.check_grown h]
      cases hcheck : g.check s with
      | error e => rfl
      | ok _ =>
          have hlt : o.vertex < g.size := ((g.check_eq_ok_iff s).1 hcheck o ho).lt_size
          have hreachable : reachable g' o.vertex = reachable g o.vertex := h.sweep_eq hlt _ _
          rw [hreachable]
          cases hvertices : reachable g o.vertex with
          | error e => rfl
          | ok vertices =>
              have hall := lt_of_mem_sweep hvertices (fun m hm => absurd hm List.not_mem_nil) hlt
              have hemit : emit g' [] vertices = emit g [] vertices := h.emit_eq hall []
              simp only [bind, Except.bind, hemit]

end Graph

/-- Whatever calls are made to a graph, its vertices stay where they are and are found there, and the definition of a
state that can be had, or the error, stays the same. -/
theorem marshal_calls (g : Graph) (calls : List Call) :
    (∀ vertex v, g.vertex? vertex = some v →
      (calls.foldl Call.next g).vertex? vertex = some v ∧ (calls.foldl Call.next g).position? v = some vertex) ∧
      ∀ s, g.Genuine s → ∀ platform, marshal (calls.foldl Call.next g) s platform = marshal g s platform := by
  have hgrows := Call.growsTo_calls calls g
  constructor
  · intro vertex v hv
    have hgrown := hgrows.vertex? hv
    exact ⟨hgrown, Graph.position?_eq_some_iff.2 hgrown⟩
  · intro s hs platform
    exact hs.marshal_grown hgrows platform

/-- Behind the sample: its own run once more, a copy that reads what the run left, a copy out of another graph, which
is refused, and a copy that has no definition. -/
def laterCalls : List Call :=
  [.exec (sampleState 0 0) sampleRun, .copy (sampleState 2 1) "/src" .scratch "/" .plain,
    .copy (.ofOutput ⟨⟨1⟩, 0, 0⟩) "/a" .scratch "/b" .plain, .copy (sampleState 2 1) "" .scratch "/" .plain]

/-- Two of the calls add a vertex. What the run left has its definition as before. -/
theorem marshal_calls_later :
    (laterCalls.foldl Call.next sampleGraph).size = sampleGraph.size + 2 ∧
      (laterCalls.foldl Call.next sampleGraph).vertex? 2 = sampleGraph.vertex? 2 ∧
      marshal (laterCalls.foldl Call.next sampleGraph) (sampleState 2 1) .target = .ok sampleDefinition := by
  obtain ⟨hvertices, hmarshal⟩ := marshal_calls sampleGraph laterCalls
  refine ⟨rfl, (hvertices 2 _ rfl).1, ?_⟩
  rw [hmarshal (sampleState 2 1) (Graph.genuine_of_check rfl), marshal_sample]

end BuildGraph
