import BuildGraph.Proofs.Check
import BuildGraph.Proofs.Graph.Call
import Mathlib.Data.List.Nodup

/-!
# Sound graphs

No vertex occurs twice in a graph. In a sound graph every input of a vertex is an output of a vertex in front of
it, so the positions order the graph, and what a vertex depends on can be found by going down.

Every graph that calls lead to is sound. The only step to look at is that of interning a vertex whose inputs the
graph has: the inputs of what a call interns are outputs of the states in the call, and these have been checked.
-/

namespace BuildGraph

namespace Graph

/-- No vertex is in two positions, since it is found in one. -/
theorem nodup (g : Graph) : g.vertices.Nodup := by
  rw [List.nodup_iff_getElem?_ne_getElem?]
  intro i j hij hj hsame
  obtain ⟨v, hv⟩ : ∃ v, g.vertices[j]? = some v := ⟨_, List.getElem?_eq_getElem hj⟩
  have hi := (g.found v i).2 (hsame.trans hv)
  rw [(g.found v j).2 hv] at hi
  exact Nat.ne_of_gt hij (Option.some.inj hi)

/-- Vertices read what is in front of them. -/
structure Sound (g : Graph) : Prop where
  inputs : ∀ i v, g.vertex? i = some v → ∀ o ∈ v.inputs, o.vertex < i ∧ g.HasOutput o

theorem sound_empty (id : GraphId) : (empty id).Sound where
  inputs := by
    intro i v h
    simp [vertex?, empty] at h

/-- A vertex that the graph has is found, and a new one is added. -/
theorem intern_cases (g : Graph) (v : Vertex) :
    (∃ i, g.vertex? i = some v ∧ g.intern v = (i, g)) ∨
      ∃ hnew : g.position? v = none, g.intern v = (g.size, g.push v hnew) := by
  unfold intern
  split
  · rename_i i hi
    exact .inl ⟨i, position?_eq_some_iff.1 hi, rfl⟩
  · rename_i hnew
    exact .inr ⟨hnew, rfl⟩

theorem vertices_prefix_intern (g : Graph) (v : Vertex) :
    g.vertices <+: (g.intern v).2.vertices := by
  rcases g.intern_cases v with ⟨i, -, h⟩ | ⟨hnew, h⟩
  · exact h ▸ List.prefix_rfl
  · rw [h]
    exact List.prefix_append _ _

theorem vertex?_of_prefix {g g' : Graph} (h : g.vertices <+: g'.vertices) {i : Nat} {v : Vertex}
    (hv : g.vertex? i = some v) : g'.vertex? i = some v := by
  obtain ⟨rest, hrest⟩ := h
  obtain ⟨hlt, -⟩ := List.getElem?_eq_some_iff.1 hv
  unfold vertex? at hv ⊢
  rw [← hrest, List.getElem?_append_left hlt, hv]

theorem vertex?_intern_of_some {g : Graph} {i : Nat} {w : Vertex} (h : g.vertex? i = some w)
    (v : Vertex) : (g.intern v).2.vertex? i = some w :=
  vertex?_of_prefix (g.vertices_prefix_intern v) h

/-- The vertex is found where it was interned. -/
theorem vertex?_intern (g : Graph) (v : Vertex) :
    (g.intern v).2.vertex? (g.intern v).1 = some v := by
  rcases g.intern_cases v with ⟨i, hi, h⟩ | ⟨hnew, h⟩
  · rw [h, hi]
  · rw [h]
    simp [vertex?, size, push]

theorem HasOutput.intern {g : Graph} {o : Output} (h : g.HasOutput o) (v : Vertex) :
    (g.intern v).2.HasOutput o := by
  obtain ⟨hid, w, hw, hindex⟩ := h
  exact ⟨by rw [id_intern, hid], w, vertex?_intern_of_some hw v, hindex⟩

theorem HasOutput.lt_size {g : Graph} {o : Output} (h : g.HasOutput o) : o.vertex < g.size := by
  obtain ⟨-, w, hw, -⟩ := h
  exact (List.getElem?_eq_some_iff.1 hw).1

/-- A new vertex stands behind all vertices that it reads. -/
theorem Sound.intern {g : Graph} (hg : g.Sound) {v : Vertex} (hv : ∀ o ∈ v.inputs, g.HasOutput o) :
    (g.intern v).2.Sound := by
  rcases g.intern_cases v with ⟨i, -, h⟩ | ⟨hnew, h⟩
  · rwa [h]
  · constructor
    intro i w hw o ho
    have hvertices : (g.intern v).2.vertices = g.vertices ++ [v] := by rw [h, push]
    rw [vertex?, hvertices, List.getElem?_append] at hw
    split at hw
    · obtain ⟨hlt, hout⟩ := hg.inputs i w hw o ho
      exact ⟨hlt, hout.intern v⟩
    · rename_i hge
      rw [List.mem_singleton.1 (List.mem_of_getElem? hw)] at ho
      have hlt : o.vertex < g.vertices.length := (hv o ho).lt_size
      exact ⟨by omega, (hv o ho).intern v⟩

end Graph

theorem mem_slot {inputs : List Output} {s : State} {o : Output} (h : o ∈ (slot inputs s).2) :
    o ∈ inputs ∨ s.output = some o := by
  unfold slot at h
  split at h
  · exact .inl h
  · rename_i o' ho'
    split at h
    · exact .inl h
    · rcases List.mem_append.1 h with h | h
      · exact .inl h
      · rw [List.mem_singleton.1 h]
        exact .inr ho'

theorem mem_bindMounts {inputs : List Output} {next : Nat} {mounts : List Mount} {o : Output}
    (h : o ∈ (bindMounts inputs next mounts).2) :
    o ∈ inputs ∨ ∃ m ∈ mounts, m.source.output = some o := by
  induction mounts generalizing inputs next with
  | nil => exact .inl h
  | cons m ms ih =>
      rcases ih h with h | ⟨n, hn, ho⟩
      · rcases mem_slot h with h | h
        · exact .inl h
        · exact .inr ⟨m, List.mem_cons_self, h⟩
      · exact .inr ⟨n, List.mem_cons_of_mem _ hn, ho⟩

theorem mem_slots {inputs : List Output} {states : List State} {o : Output}
    (h : o ∈ (Build.slots inputs states).2) :
    o ∈ inputs ∨ ∃ s ∈ states, s.output = some o := by
  induction states generalizing inputs with
  | nil => exact .inl h
  | cons s ss ih =>
      rcases ih h with h | ⟨t, ht, ho⟩
      · rcases mem_slot h with h | h
        · exact .inl h
        · exact .inr ⟨s, List.mem_cons_self, h⟩
      · exact .inr ⟨t, List.mem_cons_of_mem _ ht, ho⟩

namespace Graph

theorem sound_accept {ε α : Type} {g : Graph} (hg : g.Sound) {condition : Except ε Unit} {v : Vertex}
    {answer : Nat → α} (hv : condition = .ok () → ∀ o ∈ v.inputs, g.HasOutput o) :
    (g.accept condition v answer).2.Sound := by
  unfold accept
  split
  · exact hg
  · exact hg.intern (hv rfl)

theorem sound_source {ε α : Type} {g : Graph} (hg : g.Sound) {condition : Except ε Unit} {s : Source}
    {answer : Nat → α} : (g.accept condition ⟨.source s, []⟩ answer).2.Sound :=
  sound_accept hg fun _ _ ho => absurd ho List.not_mem_nil

theorem sound_exec {g : Graph} (hg : g.Sound) (base : State) (options : RunOptions) :
    ((Build.exec base options).run g).2.Sound := by
  rw [Build.run_exec]
  refine sound_accept hg fun hok o ho => ?_
  obtain ⟨-, hchecks⟩ := check_bind_eq_ok_iff.1 hok
  obtain ⟨hbase, hmounts⟩ := check_bind_eq_ok_iff.1 hchecks
  rcases mem_bindMounts ho with ho | ⟨m, hm, ho⟩
  · rcases mem_slot ho with ho | ho
    · cases ho
    · exact (g.check_eq_ok_iff base).1 hbase o ho
  · exact (g.check_eq_ok_iff m.source).1 (forM_eq_ok_iff.1 hmounts m hm) o ho

theorem sound_copy {g : Graph} (hg : g.Sound) (src : State) (srcPath : String) (dest : State)
    (destPath : String) (flags : CopyFlags) :
    ((Build.copy src srcPath dest destPath flags).run g).2.Sound := by
  rw [Build.run_copy]
  refine sound_accept hg fun hok o ho => ?_
  obtain ⟨hsrc, hdest⟩ := check_bind_eq_ok_iff.1 hok
  rcases mem_slot ho with ho | ho
  · rcases mem_slot ho with ho | ho
    · cases ho
    · exact (g.check_eq_ok_iff dest).1 hdest o ho
  · exact (g.check_eq_ok_iff src).1 hsrc o ho

theorem sound_merge {g : Graph} (hg : g.Sound) (states : List State) :
    ((Build.merge states).run g).2.Sound := by
  rw [Build.run_merge]
  unfold Build.acceptLayers
  split
  · exact hg
  · exact hg
  · refine sound_accept hg fun hok o ho => ?_
    rcases mem_slots ho with ho | ⟨s, hs, ho⟩
    · cases ho
    · exact (g.check_eq_ok_iff s).1 (forM_eq_ok_iff.1 hok s hs) o ho

/-- A call keeps a graph sound, whether it succeeds or fails. -/
theorem Sound.next {g : Graph} (hg : g.Sound) (c : Call) : (c.next g).Sound := by
  cases c with
  | image reference =>
      rw [Call.next, Build.run_image]
      split
      · exact hg
      · exact sound_source hg
  | localDir name =>
      rw [Call.next, Build.run_localDir]
      exact sound_source hg
  | exec base options => exact sound_exec hg base options
  | copy src srcPath dest destPath flags => exact sound_copy hg src srcPath dest destPath flags
  | merge states => exact sound_merge hg states

theorem Reachable.sound {g : Graph} (h : g.Reachable) : g.Sound := by
  induction h with
  | empty id => exact sound_empty id
  | call _ c ih => exact ih.next c

end Graph

end BuildGraph
