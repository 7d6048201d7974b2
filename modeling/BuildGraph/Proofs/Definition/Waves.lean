import BuildGraph.Proofs.Definition.Order
import Mathlib.Data.List.MinMax

/-!
# Waves

Where every node reads nodes of lower rank only, of those that remain one of the lowest rank is ready, so no wave is
empty (`Descends.ready_ne_nil`). All waves together are the operations, each once (`perm_waves`).
-/

namespace BuildGraph.Dag

open scoped List

/-- Nodes read what has a lower rank than they have. -/
def Descends (rank : Digest → Nat) (nodes : List DagNode) : Prop :=
  ∀ n ∈ nodes, ∀ d ∈ n.inputs, rank d < rank n.digest

variable {rank : Digest → Nat} {remaining : List DagNode}

/-- Of the nodes that remain those of the lowest rank are ready. -/
theorem Descends.ready_ne_nil (h : Descends rank remaining) (hne : remaining ≠ []) : ready remaining ≠ [] := by
  obtain ⟨n, hn⟩ : ∃ n, n ∈ List.argmin (fun n => rank n.digest) remaining :=
    Option.ne_none_iff_exists'.1 (mt List.argmin_eq_none.1 hne)
  have hmem := List.argmin_mem hn
  refine List.ne_nil_of_mem (List.mem_filter.2 ⟨hmem, ?_⟩)
  rw [isReady, List.all_eq_true]
  intro d hd
  rw [Bool.not_eq_true', List.any_eq_false]
  rintro n' hn' hsame
  have hlower := h n hmem d hd
  rw [← eq_of_beq hsame] at hlower
  exact List.not_lt_of_mem_argmin hn' hn hlower

/-- The waves are the nodes, each once. -/
theorem perm_wavesOf {remaining : List DagNode} {waves : List (List Digest)} (h : wavesOf remaining = .ok waves) :
    waves.flatten.Perm (remaining.map (·.digest)) := by
  induction remaining using wavesOf.induct generalizing waves with
  | case1 =>
      rw [wavesOf, if_pos rfl] at h
      cases h
      exact .nil
  | case2 remaining hne hready =>
      rw [wavesOf, if_neg hne, dif_pos hready] at h
      cases h
  | case3 remaining hne hready ih =>
      rw [wavesOf, if_neg hne, dif_neg hready] at h
      obtain ⟨later, hlater, hdone⟩ := bind_eq_ok_iff.1 h
      cases hdone
      have hsplit : (ready remaining ++ waiting remaining).Perm remaining := List.filter_append_perm _ _
      have hwave := List.mergeSort_perm ((ready remaining).map (·.digest)) Digest.le
      calc ((ready remaining).map (·.digest)).mergeSort Digest.le ++ later.flatten
          ~ (ready remaining).map (·.digest) ++ (waiting remaining).map (·.digest) := hwave.append (ih hlater)
        _ = (ready remaining ++ waiting remaining).map (·.digest) := List.map_append.symm
        _ ~ remaining.map (·.digest) := hsplit.map _

/-- The waves are the operations, each once. -/
theorem perm_waves {ops : List DefinitionOp} {waves : List (List Digest)} (h : (ofOps ops).waves = .ok waves) :
    waves.flatten.Perm (ops.map (·.digest)) := by
  have hnodes := perm_wavesOf h
  rwa [ofOps, List.map_map] at hnodes

end BuildGraph.Dag
