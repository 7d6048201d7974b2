import BuildGraph.Proofs.Definition.Emission
import BuildGraph.Proofs.Definition.Waves

/-!
# Waves are levels

The level of an operation is 0 if it reads nothing, and one more than the largest level among its inputs otherwise. When
the operations below a level have come about, those of the level are just the ones that are ready
(`Graded.isReady_iff`), so the waves are the levels one after another.

Whether an operation is ready can also be told by counting. A counter for each operation says how many of its inputs
have not come about, one and the same input counted as often as it is read, and falls by one for each of them that does
(`countedWaves`). At each level the counters are right, so the waves are the same (`Graded.countedWaves_pendingFrom`).
-/

namespace BuildGraph

/-- Digests that differ are put into strictly ascending order. -/
theorem Digest.ascending_mergeSort {ds : List Digest} (h : ds.Nodup) :
    (ds.mergeSort Digest.le).Pairwise (·.text < ·.text) := by
  have hsorted : (ds.mergeSort Digest.le).Pairwise fun a b => Digest.le a b = true := by
    apply List.pairwise_mergeSort
    · intro a b c hab hbc
      simp only [Digest.le, decide_eq_true_eq] at hab hbc ⊢
      exact String.le_trans hab hbc
    · intro a b
      simp [Digest.le, String.le_total]
  have hnodup : (ds.mergeSort Digest.le).Nodup := (List.mergeSort_perm ds Digest.le).nodup_iff.2 h
  refine (hsorted.and hnodup).imp ?_
  intro a b hab
  have hle : a.text ≤ b.text := of_decide_eq_true hab.1
  apply String.not_le.1
  intro hge
  exact hab.2 (congrArg Digest.mk (String.le_antisymm hle hge))

/-- Sorted, they do not depend on the order in which they were given. -/
theorem Digest.mergeSort_eq_of_perm {ds ds' : List Digest} (h : ds.Perm ds') (hnodup : ds'.Nodup) :
    ds.mergeSort Digest.le = ds'.mergeSort Digest.le := by
  have hperm : (ds.mergeSort Digest.le).Perm (ds'.mergeSort Digest.le) :=
    (List.mergeSort_perm ds _).trans (h.trans (List.mergeSort_perm ds' _).symm)
  refine hperm.eq_of_pairwise ?_ (ascending_mergeSort (h.nodup_iff.2 hnodup)) (ascending_mergeSort hnodup)
  intro a b _ _ hab hba
  exact absurd hab (String.lt_asymm hba)

namespace Dag

/-- One more than the largest of some levels, 0 if there are none. -/
def above (levels : List Nat) : Nat := levels.max?.elim 0 (· + 1)

theorem above_le_iff {levels : List Nat} {k : Nat} : above levels ≤ k ↔ ∀ l ∈ levels, l < k := by
  unfold above
  cases h : levels.max? with
  | none =>
      rw [List.max?_eq_none_iff] at h
      simp [h]
  | some m =>
      cases k with
      | zero =>
          have hm := List.max?_mem h
          simp only [Option.elim_some, Nat.not_lt_zero, Nat.le_zero, Nat.succ_ne_zero, false_iff]
          intro hnone
          exact hnone m hm
      | succ k =>
          rw [Option.elim_some, Nat.add_le_add_iff_right, List.max?_le_iff h]
          exact forall₂_congr fun l _ => Nat.lt_succ_iff.symm

/-- Every node reads other nodes only, and has the level that follows from theirs. -/
structure Graded (level : Digest → Nat) (nodes : List DagNode) : Prop where
  level_eq : ∀ n ∈ nodes, level n.digest = above (n.inputs.map level)
  closed : ∀ n ∈ nodes, ∀ d ∈ n.inputs, ∃ n' ∈ nodes, n'.digest = d

/-- In a listing every operation has a level, found from the front. -/
theorem exists_graded {ops : List DefinitionOp} (h : Listing ops) : ∃ level, Graded level (ops.map node) := by
  have hclosed : ∀ n ∈ ops.map node, ∀ d ∈ n.inputs, ∃ n' ∈ ops.map node, n'.digest = d := by
    intro n hn d hd
    obtain ⟨o, ho, rfl⟩ := List.mem_map.1 hn
    obtain ⟨r, hr, rfl⟩ := List.mem_map.1 hd
    obtain ⟨p, hp, hdigest, -⟩ := h.provides ho hr
    exact ⟨node p, List.mem_map_of_mem hp, hdigest⟩
  suffices hlevel : ∃ level : Digest → Nat, ∀ n ∈ ops.map node, level n.digest = above (n.inputs.map level) by
    obtain ⟨level, hlevel⟩ := hlevel
    exact ⟨level, hlevel, hclosed⟩
  clear hclosed
  induction h with
  | nil => exact ⟨fun _ => 0, fun n hn => absurd hn List.not_mem_nil⟩
  | @snoc ops last h hdigest hvalid hnew hinputs ih =>
      obtain ⟨level, hlevel⟩ := ih
      -- The last operation is new, so its level does not get in the way of those in front.
      let extended := Function.update level last.digest (above ((node last).inputs.map level))
      have hold : ∀ p ∈ ops, extended p.digest = level p.digest := fun p hp => Function.update_of_ne (hnew p hp) ..
      have hsame : ∀ inputs : List InputRef, (∀ r ∈ inputs, Provides ops r) →
          (inputs.map (·.digest)).map extended = (inputs.map (·.digest)).map level := by
        intro inputs hprovided
        apply List.map_congr_left
        intro d hd
        obtain ⟨r, hr, rfl⟩ := List.mem_map.1 hd
        obtain ⟨p, hp, hdigest, -⟩ := hprovided r hr
        rw [← hdigest, hold p hp]
      refine ⟨extended, ?_⟩
      intro n hn
      rw [List.map_append, List.mem_append] at hn
      rcases hn with hn | hn
      · obtain ⟨o, ho, rfl⟩ := List.mem_map.1 hn
        have hinputs' : (node o).inputs.map extended = (node o).inputs.map level :=
          hsame o.inputs fun r hr => h.provides ho hr
        rw [hinputs', ← hlevel _ (List.mem_map_of_mem ho)]
        exact hold o ho
      · obtain rfl := List.mem_singleton.1 hn
        have hinputs' : (node last).inputs.map extended = (node last).inputs.map level := hsame last.inputs hinputs
        rw [hinputs']
        exact Function.update_self ..

variable {level : Digest → Nat} {nodes : List DagNode} {n : DagNode} {k : Nat}

/-- The nodes of a level. -/
def atLevel (level : Digest → Nat) (nodes : List DagNode) (k : Nat) : List DagNode :=
  nodes.filter fun n => level n.digest = k

/-- The nodes of a level or of higher ones. -/
def fromLevel (level : Digest → Nat) (nodes : List DagNode) (k : Nat) : List DagNode :=
  nodes.filter fun n => k ≤ level n.digest

/-- The operations of a level, ascending. -/
def waveAt (level : Digest → Nat) (nodes : List DagNode) (k : Nat) : List Digest :=
  ((atLevel level nodes k).map (·.digest)).mergeSort Digest.le

theorem fromLevel_zero (level : Digest → Nat) (nodes : List DagNode) : fromLevel level nodes 0 = nodes := by
  simp [fromLevel]

theorem nodup_atLevel (h : (nodes.map (·.digest)).Nodup) : ((atLevel level nodes k).map (·.digest)).Nodup :=
  h.sublist (List.filter_sublist.map _)

theorem mem_waveAt_iff {d : Digest} : d ∈ waveAt level nodes k ↔ (∃ n ∈ nodes, n.digest = d) ∧ level d = k := by
  simp only [waveAt, atLevel, List.mem_mergeSort, List.mem_map, List.mem_filter, decide_eq_true_eq]
  constructor
  · rintro ⟨n, ⟨hn, hlevel⟩, rfl⟩
    exact ⟨⟨n, hn, rfl⟩, hlevel⟩
  · rintro ⟨⟨n, hn, rfl⟩, hlevel⟩
    exact ⟨n, ⟨hn, hlevel⟩, rfl⟩

namespace Graded

theorem level_le_iff (h : Graded level nodes) (hn : n ∈ nodes) : level n.digest ≤ k ↔ ∀ d ∈ n.inputs, level d < k := by
  rw [h.level_eq n hn, above_le_iff, List.forall_mem_map]

theorem descends (h : Graded level nodes) : Descends level nodes :=
  fun _ hn => (h.level_le_iff hn).1 (Nat.le_refl _)

/-- When all below a level have come about the nodes up to the level are ready. -/
theorem isReady_iff (h : Graded level nodes) (hn : n ∈ nodes) :
    isReady (fromLevel level nodes k) n = true ↔ level n.digest ≤ k := by
  have hremains : ∀ d ∈ n.inputs, (fromLevel level nodes k).any (·.digest == d) = true ↔ k ≤ level d := by
    intro d hd
    obtain ⟨n', hn', rfl⟩ := h.closed n hn d hd
    simp only [fromLevel, List.any_eq_true, List.mem_filter, decide_eq_true_eq, beq_iff_eq]
    constructor
    · rintro ⟨n'', ⟨-, hle⟩, hdigest⟩
      rwa [hdigest] at hle
    · intro hle
      exact ⟨n', ⟨hn', hle⟩, rfl⟩
  rw [h.level_le_iff hn, isReady, List.all_eq_true]
  apply forall₂_congr
  intro d hd
  rw [Bool.not_eq_true', ← Bool.not_eq_true, hremains d hd, Nat.not_le]

theorem ready_fromLevel (h : Graded level nodes) : ready (fromLevel level nodes k) = atLevel level nodes k := by
  rw [ready, fromLevel, List.filter_filter]
  apply List.filter_congr
  intro n hn
  rw [← fromLevel, Bool.eq_iff_iff, Bool.and_eq_true, h.isReady_iff hn]
  simp only [decide_eq_true_eq]
  omega

theorem waiting_fromLevel (h : Graded level nodes) :
    waiting (fromLevel level nodes k) = fromLevel level nodes (k + 1) := by
  rw [waiting, fromLevel, List.filter_filter]
  apply List.filter_congr
  intro n hn
  rw [← fromLevel, Bool.eq_iff_iff, Bool.and_eq_true, Bool.not_eq_true', ← Bool.not_eq_true, h.isReady_iff hn]
  simp only [decide_eq_true_eq]
  omega

theorem descends_fromLevel (h : Graded level nodes) : Descends level (fromLevel level nodes k) :=
  fun n hn => h.descends n (List.mem_of_mem_filter hn)

/-- Where nodes remain there are some of the next level. -/
theorem atLevel_ne_nil (h : Graded level nodes) (hne : fromLevel level nodes k ≠ []) : atLevel level nodes k ≠ [] := by
  rw [← h.ready_fromLevel]
  exact h.descends_fromLevel.ready_ne_nil hne

/-- There are fewer nodes behind a level than from it on. -/
theorem length_fromLevel_lt (h : Graded level nodes) (hne : fromLevel level nodes k ≠ []) :
    (fromLevel level nodes (k + 1)).length < (fromLevel level nodes k).length := by
  rw [← h.waiting_fromLevel]
  exact length_waiting_lt (h.descends_fromLevel.ready_ne_nil hne)

/-- The waves of what remains are the levels that are left, and none of these is empty. -/
theorem wavesOf_fromLevel (h : Graded level nodes) (k : Nat) :
    ∃ count, wavesOf (fromLevel level nodes k) = .ok ((List.range' k count).map (waveAt level nodes)) ∧
      (∀ n ∈ nodes, level n.digest < k + count) ∧ ∀ i ∈ List.range' k count, atLevel level nodes i ≠ [] := by
  induction hlength : (fromLevel level nodes k).length using Nat.strong_induction_on generalizing k with
  | _ length ih =>
      subst hlength
      by_cases hne : fromLevel level nodes k = []
      · refine ⟨0, by rw [wavesOf, if_pos hne]; rfl, ?_, fun i hi => absurd hi List.not_mem_nil⟩
        intro n hn
        have hbelow := List.filter_eq_nil_iff.1 hne n hn
        simpa using hbelow
      · obtain ⟨count, hwaves, hlevels, hnone⟩ := ih _ (h.length_fromLevel_lt hne) (k + 1) rfl
        refine ⟨count + 1, ?_, ?_, ?_⟩
        · rw [wavesOf, if_neg hne, dif_neg (h.descends_fromLevel.ready_ne_nil hne), h.waiting_fromLevel, hwaves,
            h.ready_fromLevel, List.range'_succ, List.map_cons]
          rfl
        · intro n hn
          have hlevel := hlevels n hn
          omega
        · rw [List.range'_succ, List.forall_mem_cons]
          exact ⟨h.atLevel_ne_nil hne, hnone⟩

end Graded

/-- The nodes that remain, each with a counter. -/
abbrev Pending := List (DagNode × Nat)

/-- The counters once an operation has come about: those of its readers fall by one for each time that they read it,
and stop at 0. -/
def release (pending : Pending) (d : Digest) : Pending := pending.map fun p => (p.1, p.2 - p.1.inputs.count d)

/-- The nodes whose counter is 0. -/
def due (pending : Pending) : Pending := pending.filter (·.2 == 0)

def notDue (pending : Pending) : Pending := pending.filter (·.2 != 0)

theorem length_foldl_release (ds : List Digest) (pending : Pending) :
    (ds.foldl release pending).length = pending.length := by
  induction ds generalizing pending with
  | nil => rfl
  | cons d ds ih => rw [List.foldl_cons, ih, release, List.length_map]

theorem length_notDue_lt {pending : Pending} (h : due pending ≠ []) : (notDue pending).length < pending.length := by
  obtain ⟨p, hp⟩ := List.exists_mem_of_ne_nil _ h
  obtain ⟨hmem, hdue⟩ := List.mem_filter.1 hp
  exact List.length_filter_lt_length_iff_exists.2 ⟨p, hmem, by simpa using hdue⟩

/-- The waves as they are found by counting. The operations of a wave come about in some order. -/
def countedWaves (arrange : List Digest → List Digest) (pending : Pending) : Except DagError (List (List Digest)) :=
  if pending = [] then .ok []
  else if _h : due pending = [] then .error .cycleDetected
  else do
    let wave := arrange ((due pending).map (·.1.digest))
    let later ← countedWaves arrange (wave.foldl release (notDue pending))
    return wave.mergeSort Digest.le :: later
termination_by pending.length
decreasing_by
  rw [length_foldl_release]
  exact length_notDue_lt _h

/-- Before anything has come about a counter is the number of inputs. -/
def unmet (dag : Dag) : Pending := dag.nodes.map fun n => (n, n.inputs.length)

/-- The elements that are in a longer list are those that are its head, and those that are in its tail. -/
theorem count_add_countP {d : Digest} {ds : List Digest} (hd : d ∉ ds) (inputs : List Digest) :
    inputs.count d + inputs.countP (ds.contains ·) = inputs.countP ((d :: ds).contains ·) := by
  have hnot : ds.contains d = false := by
    rw [← Bool.not_eq_true, List.contains_iff_mem]
    exact hd
  induction inputs with
  | nil => rfl
  | cons x xs ih =>
      have hsplit : (if x == d then 1 else 0) + (if ds.contains x then 1 else 0) =
          if (d :: ds).contains x then 1 else 0 := by
        by_cases hx : x = d
        · rw [hx, List.contains_cons, hnot, beq_self_eq_true]
          rfl
        · rw [List.contains_cons, beq_false_of_ne hx, Bool.false_or]
          exact Nat.zero_add _
      rw [List.count_cons, List.countP_cons, List.countP_cons, ← ih, ← hsplit]
      omega

/-- When different operations have come about, a counter has fallen by the number of inputs that are among them. -/
theorem foldl_release {ds : List Digest} (h : ds.Nodup) (pending : Pending) :
    ds.foldl release pending = pending.map fun p => (p.1, p.2 - p.1.inputs.countP (ds.contains ·)) := by
  induction ds generalizing pending with
  | nil =>
      have hnone : ∀ inputs : List Digest, inputs.countP (([] : List Digest).contains ·) = 0 :=
        fun _ => List.countP_eq_zero.2 fun _ _ => Bool.false_ne_true
      simp only [hnone, Nat.sub_zero, Prod.mk.eta]
      exact (List.map_id pending).symm
  | cons d ds ih =>
      obtain ⟨hd, hds⟩ := List.nodup_cons.1 h
      rw [List.foldl_cons, ih hds, release, List.map_map]
      apply List.map_congr_left
      intro p _
      rw [Function.comp_apply, Nat.sub_sub, count_add_countP hd]

/-- The order in which operations come about does not matter to the counters. -/
theorem foldl_release_perm {ds ds' : List Digest} (h : ds.Perm ds') (hnodup : ds'.Nodup) (pending : Pending) :
    ds.foldl release pending = ds'.foldl release pending := by
  have hcontains : ds.contains = ds'.contains := by
    funext d
    rw [Bool.eq_iff_iff, List.contains_iff_mem, List.contains_iff_mem, h.mem_iff]
  rw [foldl_release (h.nodup_iff.2 hnodup), foldl_release hnodup, hcontains]

/-- The inputs of a level or of higher ones are those of the level and those of higher ones. -/
theorem countP_from_eq {inputs : List Digest} {isAt : Digest → Bool} (h : ∀ d ∈ inputs, isAt d = true ↔ level d = k) :
    inputs.countP (fun d => k ≤ level d) = inputs.countP isAt + inputs.countP fun d => k + 1 ≤ level d := by
  induction inputs with
  | nil => rfl
  | cons d inputs ih =>
      obtain ⟨hd, hinputs⟩ := List.forall_mem_cons.1 h
      rw [List.countP_cons, List.countP_cons, List.countP_cons, ih hinputs]
      simp only [hd, decide_eq_true_eq]
      split_ifs <;> omega

/-- The nodes of a level or of higher ones, with the numbers of inputs that have such a level. -/
def pendingFrom (level : Digest → Nat) (nodes : List DagNode) (k : Nat) : Pending :=
  (fromLevel level nodes k).map fun n => (n, n.inputs.countP fun d => k ≤ level d)

namespace Graded

theorem countP_eq_zero_iff (h : Graded level nodes) (hn : n ∈ nodes) :
    n.inputs.countP (fun d => k ≤ level d) = 0 ↔ level n.digest ≤ k := by
  simp [h.level_le_iff hn]

theorem due_pendingFrom (h : Graded level nodes) :
    due (pendingFrom level nodes k) =
      (atLevel level nodes k).map fun n => (n, n.inputs.countP fun d => k ≤ level d) := by
  rw [due, pendingFrom, List.filter_map, ← h.ready_fromLevel, ready]
  congr 1
  apply List.filter_congr
  intro n hn
  have hmem := List.mem_of_mem_filter hn
  rw [Bool.eq_iff_iff, h.isReady_iff hmem, Function.comp_apply, beq_iff_eq, h.countP_eq_zero_iff hmem]

theorem notDue_pendingFrom (h : Graded level nodes) :
    notDue (pendingFrom level nodes k) =
      (fromLevel level nodes (k + 1)).map fun n => (n, n.inputs.countP fun d => k ≤ level d) := by
  rw [notDue, pendingFrom, List.filter_map, ← h.waiting_fromLevel, waiting]
  congr 1
  apply List.filter_congr
  intro n hn
  have hmem := List.mem_of_mem_filter hn
  rw [Bool.eq_iff_iff, Bool.not_eq_true', ← Bool.not_eq_true, h.isReady_iff hmem, Function.comp_apply, bne_iff_ne,
    ne_eq, h.countP_eq_zero_iff hmem]

/-- When a level has come about the counters are right for the next one. -/
theorem foldl_release_level (h : Graded level nodes) (hnodup : (nodes.map (·.digest)).Nodup) :
    ((atLevel level nodes k).map (·.digest)).foldl release (notDue (pendingFrom level nodes k)) =
      pendingFrom level nodes (k + 1) := by
  rw [foldl_release (nodup_atLevel hnodup), h.notDue_pendingFrom, pendingFrom, List.map_map]
  apply List.map_congr_left
  intro n hn
  have hlevel : ∀ d ∈ n.inputs, ((atLevel level nodes k).map (·.digest)).contains d = true ↔ level d = k := by
    intro d hd
    obtain ⟨n', hn', rfl⟩ := h.closed n (List.mem_of_mem_filter hn) d hd
    simp only [atLevel, List.contains_iff_mem, List.mem_map, List.mem_filter, decide_eq_true_eq]
    constructor
    · rintro ⟨n'', ⟨-, hlevel⟩, hdigest⟩
      rwa [hdigest] at hlevel
    · intro hlevel
      exact ⟨n', ⟨hn', hlevel⟩, rfl⟩
  rw [Function.comp_apply, Prod.mk.injEq, countP_from_eq hlevel]
  exact ⟨rfl, Nat.add_sub_cancel_left ..⟩

/-- The counters lead to the same waves. -/
theorem countedWaves_pendingFrom (h : Graded level nodes) (hnodup : (nodes.map (·.digest)).Nodup)
    {arrange : List Digest → List Digest} (harrange : ∀ ds, (arrange ds).Perm ds) (k : Nat) :
    countedWaves arrange (pendingFrom level nodes k) = wavesOf (fromLevel level nodes k) := by
  induction hlength : (fromLevel level nodes k).length using Nat.strong_induction_on generalizing k with
  | _ length ih =>
      subst hlength
      by_cases hne : fromLevel level nodes k = []
      · rw [countedWaves, wavesOf, if_pos hne, if_pos (by rw [pendingFrom, hne]; rfl)]
      · have hpending : pendingFrom level nodes k ≠ [] := by simpa [pendingFrom] using hne
        have hdue : due (pendingFrom level nodes k) ≠ [] := by
          rw [h.due_pendingFrom]
          simpa using h.atLevel_ne_nil hne
        have hwave : (due (pendingFrom level nodes k)).map (·.1.digest) = (atLevel level nodes k).map (·.digest) := by
          rw [h.due_pendingFrom, List.map_map]
          rfl
        rw [countedWaves, if_neg hpending, dif_neg hdue, wavesOf, if_neg hne,
          dif_neg (h.descends_fromLevel.ready_ne_nil hne), h.waiting_fromLevel, h.ready_fromLevel]
        have hperm := harrange ((atLevel level nodes k).map (·.digest))
        simp only [hwave]
        rw [foldl_release_perm hperm (nodup_atLevel hnodup), h.foldl_release_level hnodup,
          ih _ (h.length_fromLevel_lt hne) (k + 1) rfl, Digest.mergeSort_eq_of_perm hperm (nodup_atLevel hnodup)]

end Graded

/-- The waves are the levels of the operations: one for each level that there is, with the operations of the level in
ascending order. -/
structure Levels (ops : List DefinitionOp) (level : Digest → Nat) (waves : List (List Digest)) : Prop where
  level_eq : ∀ o ∈ ops, level o.digest = above (o.inputs.map fun r => level r.digest)
  mem_iff : ∀ k d, (∃ wave, waves[k]? = some wave ∧ d ∈ wave) ↔ (∃ o ∈ ops, o.digest = d) ∧ level d = k
  ne_nil : ∀ wave ∈ waves, wave ≠ []
  ascending : ∀ wave ∈ waves, wave.Pairwise (·.text < ·.text)

/-- The waves of all levels up to one that no operation has. -/
theorem Graded.levels {ops : List DefinitionOp} (h : Graded level (ops.map node))
    (hnodup : ((ops.map node).map (·.digest)).Nodup) {count : Nat} (hbelow : ∀ n ∈ ops.map node, level n.digest < count)
    (hfull : ∀ k < count, atLevel level (ops.map node) k ≠ []) :
    Levels ops level ((List.range count).map (waveAt level (ops.map node))) where
  level_eq := by
    intro o ho
    have hlevel : level (node o).digest = above ((node o).inputs.map level) := h.level_eq _ (List.mem_map_of_mem ho)
    simpa [node, Function.comp_def] using hlevel
  mem_iff := by
    intro k d
    constructor
    · rintro ⟨wave, hwave, hd⟩
      rw [List.getElem?_map, Option.map_eq_some_iff] at hwave
      obtain ⟨i, hi, rfl⟩ := hwave
      obtain ⟨hk, rfl⟩ := List.getElem?_eq_some_iff.1 hi
      rw [List.getElem_range, mem_waveAt_iff] at hd
      obtain ⟨⟨n, hn, hdigest⟩, hlevel⟩ := hd
      obtain ⟨o, ho, rfl⟩ := List.mem_map.1 hn
      exact ⟨⟨o, ho, hdigest⟩, hlevel⟩
    · rintro ⟨⟨o, ho, rfl⟩, rfl⟩
      have hmem : node o ∈ ops.map node := List.mem_map_of_mem ho
      have hlt : level o.digest < count := hbelow _ hmem
      refine ⟨waveAt level (ops.map node) (level o.digest), ?_, mem_waveAt_iff.2 ⟨⟨_, hmem, rfl⟩, rfl⟩⟩
      rw [List.getElem?_map, List.getElem?_range hlt]
      rfl
  ne_nil := by
    intro wave hwave
    obtain ⟨k, hk, rfl⟩ := List.mem_map.1 hwave
    obtain ⟨n, hn⟩ := List.exists_mem_of_ne_nil _ (hfull k (List.mem_range.1 hk))
    exact List.ne_nil_of_mem (List.mem_mergeSort.2 (List.mem_map_of_mem hn))
  ascending := by
    intro wave hwave
    obtain ⟨k, -, rfl⟩ := List.mem_map.1 hwave
    exact Digest.ascending_mergeSort (nodup_atLevel hnodup)

/-- The operations of a listing have levels, and its waves are these. -/
theorem exists_levels {ops : List DefinitionOp} (h : Listing ops) :
    ∃ level waves, Graded level (ops.map node) ∧ (ofOps ops).waves = .ok waves ∧ Levels ops level waves := by
  obtain ⟨level, hgraded⟩ := exists_graded h
  obtain ⟨count, hwaves, hbelow, hfull⟩ := hgraded.wavesOf_fromLevel 0
  simp only [fromLevel_zero, ← List.range_eq_range', Nat.zero_add, List.mem_range] at hwaves hbelow hfull
  exact ⟨level, _, hgraded, hwaves, hgraded.levels (nodup_ofOps h) hbelow hfull⟩

/-- What is accepted has waves, and these are its levels. Counters lead to the same waves, in whatever order the
operations of a wave come about. -/
theorem waves_ofDefinition {d : Definition} {dag : Dag} (h : ofDefinition d = .ok dag) :
    ∃ level waves, dag.waves = .ok waves ∧ Levels d.ops level waves ∧
      ∀ arrange : List Digest → List Digest, (∀ ds, (arrange ds).Perm ds) →
        countedWaves arrange dag.unmet = .ok waves := by
  obtain ⟨hd, rfl⟩ := ofDefinition_eq_ok_iff.1 h
  obtain ⟨level, waves, hgraded, hwaves, hlevels⟩ := exists_levels hd.ops
  refine ⟨level, waves, hwaves, hlevels, ?_⟩
  intro arrange harrange
  have hunmet : (ofOps d.ops).unmet = pendingFrom level (d.ops.map node) 0 := by
    simp [unmet, pendingFrom, fromLevel_zero, ofOps]
  rw [hunmet, hgraded.countedWaves_pendingFrom (nodup_ofOps hd.ops) harrange, fromLevel_zero]
  exact hwaves

/-- An image put over itself. -/
def doubled : DefinitionOp := .ofBody [⟨sampleImage.digest, 0⟩, ⟨sampleImage.digest, 0⟩] (.merge ⟨[0, 1]⟩)

/-- What comes out of that over the image, and over itself once more. -/
def stacked : DefinitionOp :=
  .ofBody [⟨doubled.digest, 0⟩, ⟨sampleImage.digest, 0⟩, ⟨doubled.digest, 0⟩] (.merge ⟨[0, 1, 2]⟩)

def stackedDefinition : Definition :=
  ⟨Definition.currentVersion, [sampleImage, doubled, stacked], some ⟨stacked.digest, 0⟩, .target⟩

theorem accepted_stacked : ∃ dag, ofDefinition stackedDefinition = .ok dag := exists_eq_ok (by decide +kernel)

theorem waves_ofDefinition_stacked :
    ∃ dag level waves, ofDefinition stackedDefinition = .ok dag ∧ dag.waves = .ok waves ∧
      Levels stackedDefinition.ops level waves ∧ countedWaves List.reverse dag.unmet = .ok waves ∧
      level sampleImage.digest = 0 ∧ level doubled.digest = 1 ∧ level stacked.digest = 2 := by
  obtain ⟨dag, hdag⟩ := accepted_stacked
  obtain ⟨level, waves, hwaves, hlevels, hcounted⟩ := waves_ofDefinition hdag
  have himage : level sampleImage.digest = 0 := hlevels.level_eq _ (by simp [stackedDefinition])
  have hdoubled : level doubled.digest = above [level sampleImage.digest, level sampleImage.digest] :=
    hlevels.level_eq _ (by simp [stackedDefinition])
  have hstacked : level stacked.digest =
      above [level doubled.digest, level sampleImage.digest, level doubled.digest] :=
    hlevels.level_eq _ (by simp [stackedDefinition])
  rw [himage] at hdoubled
  rw [hdoubled, himage] at hstacked
  exact ⟨dag, level, waves, hdag, hwaves, hlevels, hcounted _ List.reverse_perm, himage, hdoubled, hstacked⟩

end Dag

end BuildGraph
