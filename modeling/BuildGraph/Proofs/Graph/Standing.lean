import BuildGraph.Proofs.Definition.Unfolding
import BuildGraph.Proofs.Graph.Growth
import Mathlib.Data.List.Perm.Basic
import Mathlib.Data.Option.Basic

/-!
# What a state stands for

A state of a graph stands for the unfolding of its output. That stays so while the graph grows (`Stands.grow`), and
two outputs of one graph stand for different unfoldings (`unfold_inj`): where two builds of one graph lead to the
same unfolding they have come to the same vertex. The vertices that have been added between two graphs are
described by their unfoldings as well (`Draws`), so their number is that of the different unfoldings among them.
-/

namespace BuildGraph.Graph

open scoped List

variable {g g' g'' : Graph}

theorem GrowsTo.hasOutput (h : g.GrowsTo g') {o : Output} (ho : g.HasOutput o) : g'.HasOutput o := by
  obtain ⟨hid, v, hv, hindex⟩ := ho
  exact ⟨hid.trans h.id.symm, v, h.vertex? hv, hindex⟩

/-- How an output came about is not changed by what is added later. -/
theorem GrowsTo.unfold_eq (h : g.GrowsTo g') (hg : g.Sound) (hg' : g'.Sound) (o : Output) (ho : o.vertex < g.size) :
    g'.unfold o = g.unfold o := by
  induction hn : o.vertex using Nat.strong_induction_on generalizing o with
  | _ n ih =>
      subst hn
      obtain ⟨v, hv⟩ : ∃ v, g.vertex? o.vertex = some v := ⟨_, List.getElem?_eq_getElem ho⟩
      have hinputs : ∀ i ∈ v.inputs, g'.unfold i = g.unfold i := by
        intro i hi
        obtain ⟨hlt, hout⟩ := hg.inputs o.vertex v hv i hi
        exact ih i.vertex hlt i hout.lt_size rfl
      rw [Graph.unfold_eq hg' (h.vertex? hv), Graph.unfold_eq hg hv,
        mapM_eq_mapM_of_forall₂ (List.forall₂_same.2 hinputs)]

/-- What came about in the same way in one graph is one output. -/
theorem unfold_inj (hg : g.Sound) {o o' : Output} (ho : o.graph = g.id) (ho' : o'.graph = g.id) {u : Unfolding}
    (h : g.unfold o = some u) (h' : g.unfold o' = some u) : o = o' := by
  induction u generalizing o o' with
  | node op index inputs ih =>
      obtain ⟨v, us, hv, hus, hnode⟩ := (unfold_eq_some_iff hg).1 h
      obtain ⟨v', us', hv', hus', hnode'⟩ := (unfold_eq_some_iff hg).1 h'
      obtain ⟨rfl, rfl, rfl⟩ := Unfolding.node.inj hnode
      obtain ⟨hop, hindex, rfl⟩ := Unfolding.node.inj hnode'
      have hmap : v.inputs.map g.unfold = v'.inputs.map g.unfold := by
        have hmap : ∀ {is : List Output}, List.Forall₂ (fun i w => g.unfold i = some w) is inputs →
            is.map g.unfold = inputs.map some := by
          intro is his
          rwa [← List.forall₂_eq_eq_eq, List.forall₂_map_left_iff, List.forall₂_map_right_iff]
        rw [hmap hus, hmap hus']
      have hinputs : v.inputs = v'.inputs := by
        apply eq_of_map_eq hmap
        intro i hi i' hi' hsame
        obtain ⟨w, hw, hiw⟩ := exists_of_mem_left hus hi
        exact ih w hw (hg.inputs _ v hv i hi).2.1 (hg.inputs _ v' hv' i' hi').2.1 hiw (hsame ▸ hiw)
      have hvertex := position_inj hv hv' hop hinputs
      cases o
      cases o'
      simp_all

/-- The graph has the output, which came about in the way of the unfolding. -/
structure Shows (g : Graph) (o : Output) (u : Unfolding) : Prop where
  hasOutput : g.HasOutput o
  unfold : g.unfold o = some u

/-- Two outputs are the same just if they came about in the same way. -/
theorem Shows.eq_iff (hg : g.Sound) {o o' : Output} {u u' : Unfolding} (h : g.Shows o u) (h' : g.Shows o' u') :
    o = o' ↔ u = u' := by
  constructor
  · rintro rfl
    exact Option.some.inj (h.unfold.symm.trans h'.unfold)
  · rintro rfl
    exact unfold_inj hg h.hasOutput.1 h'.hasOutput.1 h.unfold h'.unfold

/-- The state is an output that came about in the way of the unfolding. -/
def Stands (g : Graph) (s : State) (u : Unfolding) : Prop := ∃ o, s.output = some o ∧ g.Shows o u

theorem Shows.grow {o : Output} {u : Unfolding} (h : g.Shows o u) (hg : g.GrowsTo g') (hsound : g.Sound)
    (hsound' : g'.Sound) : g'.Shows o u where
  hasOutput := hg.hasOutput h.hasOutput
  unfold := by rw [hg.unfold_eq hsound hsound' o h.hasOutput.lt_size, h.unfold]

namespace Stands

variable {s s' : State} {u u' : Unfolding}

theorem check (h : g.Stands s u) : g.check s = .ok () := by
  obtain ⟨o, ho, hshows⟩ := h
  rw [check_eq_ok_iff, ho]
  rintro o' ⟨⟩
  exact hshows.hasOutput

theorem grow (h : g.Stands s u) (hg : g.GrowsTo g') (hsound : g.Sound) (hsound' : g'.Sound) : g'.Stands s u := by
  obtain ⟨o, ho, hshows⟩ := h
  exact ⟨o, ho, hshows.grow hg hsound hsound'⟩

end Stands

theorem hasOutput_of_shows {v : Vertex} {us : List Unfolding} (h : List.Forall₂ g.Shows v.inputs us) :
    ∀ o ∈ v.inputs, g.HasOutput o := by
  intro o ho
  obtain ⟨u, -, hu⟩ := exists_of_mem_left h ho
  exact hu.hasOutput

/-- The outputs of an interned vertex have its operation, and its inputs as theirs. -/
theorem shows_intern (hg : g.Sound) {v : Vertex} {us : List Unfolding} (hus : List.Forall₂ g.Shows v.inputs us)
    {index : Nat} (hindex : index < v.op.outputCount) :
    (g.intern v).2.Shows (g.output (g.intern v).1 index) (.node v.op index us) where
  hasOutput := ⟨(g.id_intern v).symm, v, g.vertex?_intern v, hindex⟩
  unfold := by
    have hsound := hg.intern (hasOutput_of_shows hus)
    refine (unfold_eq_some_iff hsound).2 ⟨v, us, g.vertex?_intern v, ?_, rfl⟩
    exact hus.imp fun i w hi => (hi.grow (.intern g v) hg hsound).unfold

/-- The vertices that have been added on the way from a graph to a larger one are those of the unfoldings, each
given by that of its output 0. A vertex that was there before may be among them as well. -/
structure Draws (g g' : Graph) (us : List Unfolding) : Prop where
  grows : g.GrowsTo g'
  shown : ∀ u ∈ us, ∃ i < g'.size, g'.unfold (g'.output i 0) = some u
  new : ∀ i < g'.size, g.size ≤ i → ∃ u ∈ us, g'.unfold (g'.output i 0) = some u

namespace Draws

variable {us us' : List Unfolding}

theorem refl (g : Graph) : g.Draws g [] where
  grows := .refl g
  shown := fun _ hu => absurd hu List.not_mem_nil
  new := fun _ hi hge => absurd hi (Nat.not_lt.2 hge)

theorem trans (h : g.Draws g' us) (h' : g'.Draws g'' us') (hg' : g'.Sound) (hg'' : g''.Sound) :
    g.Draws g'' (us ++ us') := by
  have hsize : g'.size ≤ g''.size := h'.grows.vertices.length_le
  have hold : ∀ i < g'.size, g''.unfold (g''.output i 0) = g'.unfold (g'.output i 0) := by
    intro i hi
    rw [← h'.grows.unfold_eq hg' hg'' _ hi, output, output, h'.grows.id]
  refine ⟨h.grows.trans h'.grows, ?_, ?_⟩
  · intro u hu
    rcases List.mem_append.1 hu with hu | hu
    · obtain ⟨i, hi, hiu⟩ := h.shown u hu
      exact ⟨i, Nat.lt_of_lt_of_le hi hsize, (hold i hi).trans hiu⟩
    · exact h'.shown u hu
  · intro i hi hge
    by_cases hlt : i < g'.size
    · obtain ⟨u, hu, hiu⟩ := h.new i hlt hge
      exact ⟨u, List.mem_append_left _ hu, (hold i hlt).trans hiu⟩
    · obtain ⟨u, hu, hiu⟩ := h'.new i hi (Nat.le_of_not_lt hlt)
      exact ⟨u, List.mem_append_right _ hu, hiu⟩

/-- The order of the unfoldings does not matter. -/
theorem congr (h : g.Draws g' us) (hus : ∀ u, u ∈ us ↔ u ∈ us') : g.Draws g' us' where
  grows := h.grows
  shown := fun u hu => h.shown u ((hus u).2 hu)
  new := by
    intro i hi hge
    obtain ⟨u, hu, hiu⟩ := h.new i hi hge
    exact ⟨u, (hus u).1 hu, hiu⟩

/-- To intern a vertex draws it. -/
theorem intern (hg : g.Sound) {v : Vertex} (hus : List.Forall₂ g.Shows v.inputs us)
    (hcount : 0 < v.op.outputCount) : g.Draws (g.intern v).2 [.node v.op 0 us] := by
  have hshows := shows_intern hg hus hcount
  have houtput : g.output (g.intern v).1 0 = (g.intern v).2.output (g.intern v).1 0 := by
    rw [output, output, id_intern]
  rw [houtput] at hshows
  refine ⟨.intern g v, ?_, ?_⟩
  · intro u hu
    rw [List.mem_singleton.1 hu]
    exact ⟨_, hshows.hasOutput.lt_size, hshows.unfold⟩
  · intro i hi hge
    refine ⟨_, List.mem_singleton_self _, ?_⟩
    rcases g.intern_cases v with ⟨j, -, h⟩ | ⟨hnew, h⟩
    · rw [h] at hi
      exact absurd hi (Nat.not_lt.2 hge)
    · rw [h] at hi hshows ⊢
      have hsize : (g.push v hnew).size = g.size + 1 := by simp [size, push]
      rw [hsize] at hi
      have hlast : i = g.size := Nat.le_antisymm (Nat.le_of_lt_succ hi) hge
      rw [hlast]
      exact hshows.unfold

/-- A graph that was empty before has just the vertices of the unfoldings. -/
theorem perm_op {id : GraphId} (h : (empty id).Draws g us) (hg : g.Sound) (hus : us.Nodup) :
    (g.vertices.map (·.op)).Perm (us.map (·.op)) := by
  have hperm : ((List.range g.size).map fun i => g.unfold (g.output i 0)).Perm (us.map some) := by
    apply (List.perm_ext_iff_of_nodup _ (hus.map (Option.some_injective _))).2
    · intro x
      simp only [List.mem_map, List.mem_range]
      constructor
      · rintro ⟨i, hi, rfl⟩
        obtain ⟨u, hu, hiu⟩ := h.new i hi (Nat.zero_le i)
        exact ⟨u, hu, hiu.symm⟩
      · rintro ⟨u, hu, rfl⟩
        exact h.shown u hu
    · refine List.Nodup.map_on ?_ List.nodup_range
      intro i hi j hj hsame
      obtain ⟨u, -, hiu⟩ := h.new i (List.mem_range.1 hi) (Nat.zero_le i)
      exact congrArg Output.vertex (unfold_inj hg rfl rfl hiu (hsame ▸ hiu))
  have hvertices : (g.vertices.map (·.op)).map some =
      ((List.range g.size).map fun i => g.unfold (g.output i 0)).map (Option.map (·.op)) := by
    apply List.ext_getElem
    · simp [size]
    · intro i hi hi'
      have hlt : i < g.vertices.length := by simpa using hi
      obtain ⟨u, -, hiu⟩ := h.new i hlt (Nat.zero_le i)
      obtain ⟨v, inputs, hv, -, rfl⟩ := (unfold_eq_some_iff hg).1 hiu
      have hvi : g.vertices[i] = v := (List.getElem?_eq_some_iff.1 hv).2
      simp [hiu, hvi, Unfolding.op]
  apply (List.map_perm_map_iff (Option.some_injective _)).1
  calc (g.vertices.map (·.op)).map some
      = ((List.range g.size).map fun i => g.unfold (g.output i 0)).map (Option.map (·.op)) := hvertices
    _ ~ (us.map some).map (Option.map (·.op)) := hperm.map _
    _ = (us.map (·.op)).map some := by simp

end Draws

end BuildGraph.Graph
