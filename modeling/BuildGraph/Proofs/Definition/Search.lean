import BuildGraph.Proofs.Definition.Needed
import Mathlib.Data.Finset.Card
import Mathlib.Data.Finset.Range

/-!
# What a vertex needs, by a search

What a vertex needs can also be searched for, in any order: `Graph.search` keeps a stack of vertices to look at and
a set of those that it has seen, and looks at the inputs of each vertex once. Vertices may be on the stack many
times, so the search ends not because the stack gets shorter but because a longer stack means one more vertex seen.
In a sound graph it finds the vertices that `reachable` lists, and there is nothing that it fails at.
-/

namespace BuildGraph

open Relation

namespace Graph

/-- How many vertices of the graph have not been seen. -/
def unseen (g : Graph) (seen : List Nat) : Nat := (Finset.range g.size \ seen.toFinset).card

theorem unseen_cons_lt {g : Graph} {vertex : Nat} {v : Vertex} (hv : g.vertex? vertex = some v) {seen : List Nat}
    (hnew : vertex ∉ seen) : g.unseen (vertex :: seen) < g.unseen seen := by
  have hlt : vertex < g.size := (List.getElem?_eq_some_iff.1 hv).1
  rw [unseen, List.toFinset_cons, Finset.sdiff_insert]
  refine Finset.card_erase_lt_of_mem ?_
  rw [Finset.mem_sdiff, Finset.mem_range, List.mem_toFinset]
  exact ⟨hlt, hnew⟩

/-- The vertices seen once all on the stack have been looked at. -/
def search (g : Graph) (seen : List Nat) : List Nat → Except MarshalError (List Nat)
  | [] => .ok seen
  | vertex :: stack =>
    if _hseen : vertex ∈ seen then g.search seen stack
    else
      match _hv : g.vertex? vertex with
      | none => .error (.unknownVertex vertex)
      | some v =>
        match v.inputs.find? fun o => vertex ≤ o.vertex with
        | some o => .error (.unknownVertex o.vertex)
        | none => g.search (vertex :: seen) ((v.inputs.map (·.vertex)).reverse ++ stack)
termination_by stack => (g.unseen seen, stack.length)
decreasing_by
  · exact .right _ (Nat.lt_succ_self _)
  · exact .left _ _ (unseen_cons_lt _hv _hseen)

theorem search_of_new {g : Graph} {seen stack : List Nat} {vertex : Nat} (hnew : vertex ∉ seen) {v : Vertex}
    (hv : g.vertex? vertex = some v) (hbelow : v.inputs.find? (fun o => vertex ≤ o.vertex) = none) :
    g.search seen (vertex :: stack) = g.search (vertex :: seen) ((v.inputs.map (·.vertex)).reverse ++ stack) := by
  rw [search, dif_neg hnew]
  split
  · rename_i hnone
    rw [hv] at hnone
    cases hnone
  · rename_i w hw
    obtain rfl := Option.some.inj (hv.symm.trans hw)
    rw [hbelow]

/-- What a search that has come this far will have seen. -/
def Finds (g : Graph) (seen stack : List Nat) (m : Nat) : Prop := m ∈ seen ∨ ∃ w ∈ stack, g.Needs w m

/-- What a seen vertex reads has been seen, or is still to be looked at. -/
def Closed (g : Graph) (seen stack : List Nat) : Prop :=
  ∀ m ∈ seen, ∀ r, g.Reads m r → r ∈ seen ∨ r ∈ stack

namespace Closed

variable {g : Graph} {seen stack : List Nat} {vertex : Nat}

theorem finds (h : g.Closed seen stack) {w m : Nat} (hw : w ∈ seen) (hneeds : g.Needs w m) :
    g.Finds seen stack m := by
  induction hneeds with
  | refl => exact .inl hw
  | tail _ hread ih =>
      rcases ih with hseen | ⟨w', hw', hneeds⟩
      · exact (h _ hseen _ hread).imp_right fun hstack => ⟨_, hstack, .refl⟩
      · exact .inr ⟨w', hw', hneeds.tail hread⟩

/-- A vertex that has been seen need not be looked at again. -/
theorem skip (h : g.Closed seen (vertex :: stack)) (hvertex : vertex ∈ seen) : g.Closed seen stack := by
  intro m hm r hr
  rcases h m hm r hr with hseen | hstack
  · exact .inl hseen
  · rcases List.mem_cons.1 hstack with rfl | hstack
    · exact .inl hvertex
    · exact .inr hstack

/-- A vertex is seen when what it reads has been put on the stack. -/
theorem visit (h : g.Closed seen (vertex :: stack)) {v : Vertex} (hv : g.vertex? vertex = some v) :
    g.Closed (vertex :: seen) ((v.inputs.map (·.vertex)).reverse ++ stack) := by
  intro m hm r hr
  rw [List.mem_append, List.mem_reverse]
  rcases List.mem_cons.1 hm with rfl | hm
  · obtain ⟨w, hw, o, ho, rfl⟩ := hr
    obtain rfl := Option.some.inj (hv.symm.trans hw)
    exact .inr (.inl (List.mem_map_of_mem ho))
  · rcases h m hm r hr with hseen | hstack
    · exact .inl (List.mem_cons_of_mem _ hseen)
    · rcases List.mem_cons.1 hstack with rfl | hstack
      · exact .inl List.mem_cons_self
      · exact .inr (.inr hstack)

/-- To skip a vertex does not change what will be found. -/
theorem finds_skip_iff (h : g.Closed seen (vertex :: stack)) (hvertex : vertex ∈ seen) (m : Nat) :
    g.Finds seen stack m ↔ g.Finds seen (vertex :: stack) m := by
  constructor
  · rintro (hm | ⟨w, hw, hneeds⟩)
    · exact .inl hm
    · exact .inr ⟨w, List.mem_cons_of_mem _ hw, hneeds⟩
  · rintro (hm | ⟨w, hw, hneeds⟩)
    · exact .inl hm
    · rcases List.mem_cons.1 hw with rfl | hw
      · exact (h.skip hvertex).finds hvertex hneeds
      · exact .inr ⟨w, hw, hneeds⟩

/-- To look at a vertex does not change what will be found. -/
theorem finds_visit_iff (h : g.Closed seen (vertex :: stack)) {v : Vertex} (hv : g.vertex? vertex = some v) (m : Nat) :
    g.Finds (vertex :: seen) ((v.inputs.map (·.vertex)).reverse ++ stack) m ↔ g.Finds seen (vertex :: stack) m := by
  constructor
  · rintro (hm | ⟨w, hw, hneeds⟩)
    · rcases List.mem_cons.1 hm with rfl | hm
      · exact .inr ⟨m, List.mem_cons_self, .refl⟩
      · exact .inl hm
    · rcases List.mem_append.1 hw with hw | hw
      · obtain ⟨o, ho, rfl⟩ := List.mem_map.1 (List.mem_reverse.1 hw)
        exact .inr ⟨vertex, List.mem_cons_self, (needs_iff hv).2 (.inr ⟨o, ho, hneeds⟩)⟩
      · exact .inr ⟨w, List.mem_cons_of_mem _ hw, hneeds⟩
  · rintro (hm | ⟨w, hw, hneeds⟩)
    · exact .inl (List.mem_cons_of_mem _ hm)
    · rcases List.mem_cons.1 hw with rfl | hw
      · exact (h.visit hv).finds List.mem_cons_self hneeds
      · exact .inr ⟨w, List.mem_append_right _ hw, hneeds⟩

end Closed

variable {g : Graph} {seen stack : List Nat}

/-- The search ends, and has seen what those on the stack need. -/
theorem search_eq_ok (hg : g.Sound) (hclosed : g.Closed seen stack) (hseen : seen.Nodup)
    (hstack : ∀ w ∈ stack, w < g.size) :
    ∃ found, g.search seen stack = .ok found ∧ found.Nodup ∧ ∀ m, m ∈ found ↔ g.Finds seen stack m := by
  induction seen, stack using search.induct g with
  | case1 seen =>
      refine ⟨seen, by rw [search], hseen, fun m => ?_⟩
      simp [Finds]
  | case2 seen vertex stack hvertex ih =>
      obtain ⟨-, hstack⟩ := List.forall_mem_cons.1 hstack
      obtain ⟨found, hfound, hnodup, hmem⟩ := ih (hclosed.skip hvertex) hseen hstack
      refine ⟨found, ?_, hnodup, fun m => (hmem m).trans (hclosed.finds_skip_iff hvertex m)⟩
      rw [search, dif_pos hvertex, hfound]
  -- there is nothing to fail at: vertices on the stack are there, and their inputs are in front of them
  | case3 seen vertex stack hvertex hnone =>
      have hlt := hstack vertex List.mem_cons_self
      rw [vertex?, List.getElem?_eq_getElem hlt] at hnone
      cases hnone
  | case4 seen vertex stack hvertex v hv o ho =>
      have hmem := List.mem_of_find?_eq_some ho
      have hge : vertex ≤ o.vertex := of_decide_eq_true (List.find?_some ho :)
      exact absurd (hg.inputs vertex v hv o hmem).1 (Nat.not_lt.2 hge)
  | case5 seen vertex stack hvertex v hv hnone ih =>
      obtain ⟨-, hstack⟩ := List.forall_mem_cons.1 hstack
      have hinputs : ∀ w ∈ (v.inputs.map (·.vertex)).reverse ++ stack, w < g.size := by
        intro w hw
        rcases List.mem_append.1 hw with hw | hw
        · obtain ⟨o, ho, rfl⟩ := List.mem_map.1 (List.mem_reverse.1 hw)
          exact (hg.inputs vertex v hv o ho).2.lt_size
        · exact hstack w hw
      obtain ⟨found, hfound, hnodup, hmem⟩ :=
        ih (hclosed.visit hv) (List.nodup_cons.2 ⟨hvertex, hseen⟩) hinputs
      refine ⟨found, ?_, hnodup, fun m => (hmem m).trans (hclosed.finds_visit_iff hv m)⟩
      rw [search_of_new hvertex hv hnone, hfound]

/-- From a vertex of a sound graph a search finds, each once, the vertices that are listed as reachable. -/
theorem search_perm_reachable (hg : g.Sound) {vertex : Nat} (hvertex : vertex < g.size) :
    ∃ vertices found, reachable g vertex = .ok vertices ∧ g.search [] [vertex] = .ok found ∧
      found.Perm vertices ∧ vertices.Pairwise (· < ·) ∧ ∀ m, m ∈ vertices ↔ g.Needs vertex m := by
  have hclosed : g.Closed [] [vertex] := fun m hm => absurd hm List.not_mem_nil
  have hstack : ∀ w ∈ [vertex], w < g.size := by
    intro w hw
    rwa [List.mem_singleton.1 hw]
  obtain ⟨vertices, hreachable, hsorted, hneeds⟩ := reachable_eq_ok hg hvertex
  obtain ⟨found, hfound, hnodup, hmem⟩ := search_eq_ok hg hclosed .nil hstack
  have hperm : found.Perm vertices := by
    refine (List.perm_ext_iff_of_nodup hnodup (hsorted.imp fun hlt => Nat.ne_of_lt hlt)).2 fun m => ?_
    rw [hmem m, hneeds m]
    simp [Finds]
  exact ⟨vertices, found, hreachable, hfound, hperm, hsorted, hneeds⟩

end Graph

end BuildGraph
