import BuildGraph.Definition.Marshal
import BuildGraph.Proofs.Graph.Sound
import Mathlib.Data.Nat.Basic
import Mathlib.Logic.Relation

/-!
# What a vertex needs

A vertex needs itself and whatever the vertices that it reads need. In a sound graph these are found by one pass
downwards: when `sweep` comes to a position, all vertices that could need it have been looked at.
-/

namespace BuildGraph

open Relation

namespace Graph

/-- A vertex has an output of another one as an input. -/
def Reads (g : Graph) (vertex read : Nat) : Prop :=
  ∃ v, g.vertex? vertex = some v ∧ ∃ o ∈ v.inputs, o.vertex = read

/-- A vertex is another one, or depends on it. -/
def Needs (g : Graph) : Nat → Nat → Prop := ReflTransGen g.Reads

theorem Reads.lt {g : Graph} (hg : g.Sound) {vertex read : Nat} (h : g.Reads vertex read) :
    read < vertex := by
  obtain ⟨v, hv, o, ho, rfl⟩ := h
  exact (hg.inputs vertex v hv o ho).1

theorem Needs.le {g : Graph} (hg : g.Sound) {vertex needed : Nat} (h : g.Needs vertex needed) :
    needed ≤ vertex := by
  induction h with
  | refl => exact Nat.le_refl _
  | tail _ hread ih => exact Nat.le_trans (Nat.le_of_lt (hread.lt hg)) ih

theorem needs_iff {g : Graph} {vertex : Nat} {v : Vertex} (hv : g.vertex? vertex = some v)
    {needed : Nat} :
    g.Needs vertex needed ↔ needed = vertex ∨ ∃ o ∈ v.inputs, g.Needs o.vertex needed := by
  unfold Needs
  rw [ReflTransGen.cases_head_iff]
  constructor
  · rintro (rfl | ⟨read, ⟨w, hw, o, ho, rfl⟩, hneeds⟩)
    · exact .inl rfl
    · rw [hv, Option.some.injEq] at hw
      exact .inr ⟨o, hw ▸ ho, hneeds⟩
  · rintro (rfl | ⟨o, ho, hneeds⟩)
    · exact .inl rfl
    · exact .inr ⟨o.vertex, ⟨v, hv, o, ho, rfl⟩, hneeds⟩

/-- What the wanted vertices up to `n` need, if `n` is one of them: `n`, and what its inputs and the wanted
vertices below it need. -/
theorem wanted_needs_iff {g : Graph} (hg : g.Sound) {n : Nat} {v : Vertex} (hv : g.vertex? n = some v)
    {wanted : List Nat} (hn : n ∈ wanted) (m : Nat) :
    (∃ w ∈ wanted, w < n + 1 ∧ g.Needs w m) ↔
      (∃ w ∈ v.inputs.map (·.vertex) ++ wanted, w < n ∧ g.Needs w m) ∨ m = n := by
  constructor
  · rintro ⟨w, hw, hlt, hneeds⟩
    rcases Nat.lt_succ_iff_lt_or_eq.1 hlt with hlt | rfl
    · exact .inl ⟨w, List.mem_append_right _ hw, hlt, hneeds⟩
    · rcases (needs_iff hv).1 hneeds with rfl | ⟨o, ho, hneeds⟩
      · exact .inr rfl
      · have hmap : o.vertex ∈ v.inputs.map (·.vertex) := List.mem_map.2 ⟨o, ho, rfl⟩
        exact .inl ⟨o.vertex, List.mem_append_left _ hmap, (hg.inputs w v hv o ho).1, hneeds⟩
  · rintro (⟨w, hw, hlt, hneeds⟩ | rfl)
    · rcases List.mem_append.1 hw with hw | hw
      · obtain ⟨o, ho, rfl⟩ := List.mem_map.1 hw
        exact ⟨n, hn, n.lt_succ_self, (needs_iff hv).2 (.inr ⟨o, ho, hneeds⟩)⟩
      · exact ⟨w, hw, Nat.lt_succ_of_lt hlt, hneeds⟩
    · exact ⟨m, hn, m.lt_succ_self, .refl⟩

theorem wanted_needs_iff_of_notMem {g : Graph} {n : Nat} {wanted : List Nat} (hn : n ∉ wanted)
    (m : Nat) :
    (∃ w ∈ wanted, w < n + 1 ∧ g.Needs w m) ↔ ∃ w ∈ wanted, w < n ∧ g.Needs w m := by
  have hlt : ∀ w ∈ wanted, w < n + 1 ↔ w < n := by
    intro w hw
    have hne : w ≠ n := fun h => hn (h ▸ hw)
    omega
  exact exists_congr fun w => and_congr_right fun hw => and_congr_left fun _ => hlt w hw

end Graph

/-- Of the vertices below a position, `sweep` finds those that wanted ones below it need. -/
theorem sweep_eq_ok {g : Graph} (hg : g.Sound) (n : Nat) {wanted : List Nat} (found : List Nat)
    (hwanted : ∀ w ∈ wanted, w < g.size) :
    ∃ l, sweep g n wanted found = .ok (l ++ found) ∧ l.Pairwise (· < ·) ∧
      ∀ m, m ∈ l ↔ ∃ w ∈ wanted, w < n ∧ g.Needs w m := by
  induction n generalizing wanted found with
  | zero => exact ⟨[], rfl, .nil, by simp⟩
  | succ n ih =>
      by_cases hn : n ∈ wanted
      · obtain ⟨v, hv⟩ : ∃ v, g.vertex? n = some v :=
          ⟨_, List.getElem?_eq_getElem (hwanted n hn)⟩
        have hbelow : v.inputs.find? (fun o => n ≤ o.vertex) = none := by
          simp only [List.find?_eq_none, decide_eq_true_eq, not_le]
          exact fun o ho => (hg.inputs n v hv o ho).1
        have hwanted' : ∀ w ∈ v.inputs.map (·.vertex) ++ wanted, w < g.size := by
          intro w hw
          rcases List.mem_append.1 hw with hw | hw
          · obtain ⟨o, ho, rfl⟩ := List.mem_map.1 hw
            exact (hg.inputs n v hv o ho).2.lt_size
          · exact hwanted w hw
        obtain ⟨l, hl, hsorted, hmem⟩ := ih (n :: found) hwanted'
        refine ⟨l ++ [n], ?_, ?_, ?_⟩
        · rw [sweep, if_pos hn, hv]
          simp [hbelow, hl]
        · rw [List.pairwise_append]
          refine ⟨hsorted, List.pairwise_singleton _ n, ?_⟩
          intro m hm k hk
          obtain ⟨w, -, hw, hneeds⟩ := (hmem m).1 hm
          rw [List.mem_singleton.1 hk]
          exact Nat.lt_of_le_of_lt (hneeds.le hg) hw
        · intro m
          rw [List.mem_append, List.mem_singleton, hmem m, Graph.wanted_needs_iff hg hv hn m]
      · obtain ⟨l, hl, hsorted, hmem⟩ := ih found hwanted
        refine ⟨l, ?_, hsorted, ?_⟩
        · rw [sweep, if_neg hn, hl]
        · intro m
          rw [hmem m, Graph.wanted_needs_iff_of_notMem hn m]

/-- The vertices that one depends on, ascending. -/
theorem reachable_eq_ok {g : Graph} (hg : g.Sound) {vertex : Nat} (hvertex : vertex < g.size) :
    ∃ l, reachable g vertex = .ok l ∧ l.Pairwise (· < ·) ∧ ∀ m, m ∈ l ↔ g.Needs vertex m := by
  have hwanted : ∀ w ∈ [vertex], w < g.size := by
    intro w hw
    rwa [List.mem_singleton.1 hw]
  obtain ⟨l, hl, hsorted, hmem⟩ := sweep_eq_ok hg (vertex + 1) [] hwanted
  refine ⟨l, by rw [reachable, hl, List.append_nil], hsorted, fun m => (hmem m).trans ?_⟩
  simp

end BuildGraph
