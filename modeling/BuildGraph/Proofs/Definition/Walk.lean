import BuildGraph.Proofs.Definition.Levels
import BuildGraph.Proofs.Lists
import Mathlib.Data.Finset.Card

/-!
# The walk with a stack

`finish` follows the readers of an operation by recursion. The same walk can be made with one stack and two sets: the
operation on top of the stack is discovered when the walk first meets it, and its undiscovered readers are put on
top of it; when the walk meets it again it is finished and leaves the stack, and so do the copies of it that other
operations have put there. An operation that is discovered but not finished is one whose readers the walk is going
through, so it has a lower rank than all that is discovered meanwhile (`Underway`). That is why a reader which is
passed over because it has been discovered is always a finished one, and why both walks finish the same operations
in the same order (`walkOrder_eq`).
-/

namespace BuildGraph.Dag

/-- The operations that are not in a list, put on a stack one after another. -/
def push (discovered : List Digest) (ds stack : List Digest) : List Digest :=
  ds.foldl (fun stack d => if d ∈ discovered then stack else d :: stack) stack

/-- How many operations have not been discovered, those on the stack included. -/
def undiscovered (dag : Dag) (discovered stack : List Digest) : Nat :=
  ((dag.nodes.map (·.digest) ++ stack).toFinset \ discovered.toFinset).card

theorem push_reverse (discovered ds stack : List Digest) :
    push discovered ds.reverse stack = ds.filter (· ∉ discovered) ++ stack := by
  induction ds with
  | nil => rfl
  | cons d ds ih =>
      have hfold : push discovered (d :: ds).reverse stack =
          push discovered [d] (push discovered ds.reverse stack) := by
        simp [push]
      rw [hfold, ih]
      by_cases hd : d ∈ discovered <;> simp [push, hd]

/-- With the readers of an operation on the stack there is one operation less to discover. -/
theorem undiscovered_cons_lt (dag : Dag) {discovered stack : List Digest} {d : Digest} (hnew : d ∉ discovered) :
    dag.undiscovered (d :: discovered) (push (d :: discovered) (dag.readers d).reverse (d :: stack)) <
      dag.undiscovered discovered (d :: stack) := by
  apply Finset.card_lt_card
  rw [Finset.ssubset_iff_of_subset]
  · refine ⟨d, ?_, ?_⟩
    · simp [hnew]
    · simp
  · intro r hr
    rw [push_reverse] at hr
    simp only [List.toFinset_append, Finset.mem_sdiff, Finset.mem_union, List.mem_toFinset, List.mem_filter,
      List.mem_cons, not_or] at hr ⊢
    obtain ⟨hmem, -, hnew'⟩ := hr
    refine ⟨?_, hnew'⟩
    rcases hmem with hnode | ⟨hreader, -⟩ | hstack
    · exact .inl hnode
    · obtain ⟨n, hn, rfl, -⟩ := mem_readers_iff.1 hreader
      exact .inl (List.mem_map_of_mem hn)
    · exact .inr hstack

theorem undiscovered_le (dag : Dag) (discovered stack : List Digest) (d : Digest) :
    dag.undiscovered discovered stack ≤ dag.undiscovered discovered (d :: stack) := by
  apply Finset.card_le_card
  apply Finset.sdiff_subset_sdiff _ (Finset.Subset.refl _)
  intro r hr
  simp only [List.toFinset_append, Finset.mem_union, List.mem_toFinset, List.mem_cons] at hr ⊢
  exact hr.imp_right .inr

/-- The operations discovered and finished once the stack is empty, the one finished last in front. -/
def walk (dag : Dag) (discovered finished : List Digest) : List Digest → List Digest × List Digest
  | [] => (discovered, finished)
  | d :: stack =>
    if _h : d ∈ discovered then dag.walk discovered (if d ∈ finished then finished else d :: finished) stack
    else dag.walk (d :: discovered) finished (push (d :: discovered) (dag.readers d).reverse (d :: stack))
termination_by stack => (dag.undiscovered discovered stack, stack.length)
decreasing_by
  · exact Prod.Lex.right' _ (dag.undiscovered_le discovered stack d) (Nat.lt_succ_self _)
  · exact .left _ _ (dag.undiscovered_cons_lt _h)

/-- What is discovered and what is finished once a node has been made sure of. -/
def visit (dag : Dag) (state : List Digest × List Digest) (n : DagNode) : List Digest × List Digest :=
  if n.digest ∈ state.1 then state else dag.walk state.1 state.2 [n.digest]

/-- The nodes in the reverse of the order in which walks from all of them finish them. -/
def walkOrder (dag : Dag) : List Digest := (dag.nodes.foldl dag.visit ([], [])).2

/-- What is finished has been discovered, and what has been discovered and is not finished has a lower rank. -/
structure Underway (dag : Dag) (rank : Digest → Nat) (low : Nat) (discovered finished : List Digest) : Prop where
  ordered : dag.ReadersBehind finished
  met : ∀ d ∈ finished, d ∈ discovered
  lower : ∀ d ∈ discovered, d ∉ finished → rank d < low

/-- Operations on top of a stack leave it with certain operations finished, and no others discovered besides. -/
def WalksTo (dag : Dag) (discovered finished ds after : List Digest) : Prop :=
  ∃ discovered', (∀ d, d ∈ discovered' ↔ d ∈ discovered ∨ d ∈ after) ∧
    ∀ stack, dag.walk discovered finished (ds ++ stack) = dag.walk discovered' after stack

variable {dag : Dag} {rank : Digest → Nat} {low : Nat} {discovered discovered' finished after : List Digest}
  {d : Digest}

theorem finish_of_mem (h : d ∈ finished) (depth : Nat) : dag.finish depth d finished = finished := by
  cases depth with
  | zero => rfl
  | succ depth => rw [finish, if_pos h]

namespace Underway

/-- No operation of the rank or a higher one is discovered and not finished. -/
theorem mem_finished (h : dag.Underway rank low discovered finished) (hd : d ∈ discovered) (hlow : low ≤ rank d) :
    d ∈ finished := by
  by_contra hopen
  exact Nat.not_lt.2 hlow (h.lower d hd hopen)

theorem mono (h : dag.Underway rank low discovered finished) {low' : Nat} (hle : low ≤ low') :
    dag.Underway rank low' discovered finished where
  ordered := h.ordered
  met := h.met
  lower := fun d hd hopen => Nat.lt_of_lt_of_le (h.lower d hd hopen) hle

/-- A walk leaves open what it has found open. -/
theorem finishesTo (h : dag.Underway rank low discovered finished) {low' : Nat}
    (hafter : dag.FinishesTo rank low' finished after) (hmem : ∀ d, d ∈ discovered' ↔ d ∈ discovered ∨ d ∈ after) :
    dag.Underway rank low discovered' after where
  ordered := hafter.ordered
  met := fun d hd => (hmem d).2 (.inr hd)
  lower := by
    intro d hd hopen
    rcases (hmem d).1 hd with hd | hd
    · exact h.lower d hd fun hfinished => hopen (hafter.keeps d hfinished)
    · exact absurd hd hopen

/-- The walk meets an operation for the first time. -/
theorem cons (h : dag.Underway rank (rank d) discovered finished) :
    dag.Underway rank (rank d + 1) (d :: discovered) finished where
  ordered := h.ordered
  met := fun d' hd' => List.mem_cons_of_mem _ (h.met d' hd')
  lower := by
    intro d' hd' hopen
    rcases List.mem_cons.1 hd' with rfl | hd'
    · exact Nat.lt_succ_self _
    · exact Nat.lt_succ_of_lt (h.lower d' hd' hopen)

end Underway

/-- Where no operation of some rank or a higher one is open, one that is discovered is finished already, so the walk
goes through a list of them as if it passed over none. -/
theorem walksTo_foldl {step : List Digest → Digest → List Digest} {ds skipped : List Digest}
    (hstep : ∀ d ∈ ds, ∀ finished, dag.ReadersBehind finished →
      d ∈ step finished d ∧ dag.FinishesTo rank low finished (step finished d))
    (hwalk : ∀ d ∈ ds, ∀ discovered finished, dag.Underway rank low discovered finished →
      dag.WalksTo discovered finished [d] (step finished d))
    (hkeep : ∀ d ∈ ds, ∀ finished, d ∈ finished → step finished d = finished) (hlow : ∀ d ∈ ds, low ≤ rank d)
    (h : dag.Underway rank low discovered finished) (hskipped : ∀ d ∈ skipped, d ∈ discovered) :
    dag.WalksTo discovered finished (ds.filter (· ∉ skipped)) (ds.foldl step finished) := by
  induction ds generalizing discovered finished with
  | nil => exact ⟨discovered, fun d => ⟨.inl, fun hd => hd.elim id (h.met d)⟩, fun _ => rfl⟩
  | cons d ds ih =>
      obtain ⟨hstepd, hstep⟩ := List.forall_mem_cons.1 hstep
      obtain ⟨hwalkd, hwalk⟩ := List.forall_mem_cons.1 hwalk
      obtain ⟨hkeepd, hkeep⟩ := List.forall_mem_cons.1 hkeep
      obtain ⟨hlowd, hlow⟩ := List.forall_mem_cons.1 hlow
      rw [List.foldl_cons]
      by_cases hd : d ∈ skipped
      -- What is passed over has been finished, so the recursion does nothing there either.
      · rw [List.filter_cons_of_neg (by simpa using hd), hkeepd _ (h.mem_finished (hskipped d hd) hlowd)]
        exact ih hstep hwalk hkeep hlow h hskipped
      · rw [List.filter_cons_of_pos (by simpa using hd)]
        obtain ⟨-, hfinishes⟩ := hstepd _ h.ordered
        obtain ⟨-, hothers⟩ := finishesTo_foldl hstep hfinishes.ordered
        obtain ⟨discovered₁, hmem₁, hwalk₁⟩ := hwalkd _ _ h
        have hmet : ∀ d ∈ skipped, d ∈ discovered₁ := fun d hd => (hmem₁ d).2 (.inl (hskipped d hd))
        obtain ⟨discovered₂, hmem₂, hwalk₂⟩ := ih hstep hwalk hkeep hlow (h.finishesTo hfinishes hmem₁) hmet
        refine ⟨discovered₂, ?_, ?_⟩
        · intro d'
          have hkeeps := hothers.keeps d'
          rw [hmem₂, hmem₁]
          tauto
        · intro stack
          rw [List.cons_append, ← List.singleton_append, hwalk₁, hwalk₂]

/-- A copy of a finished operation leaves the stack, and that is all. -/
theorem walksTo_of_mem (h : dag.Underway rank low discovered finished) (hd : d ∈ finished) :
    dag.WalksTo discovered finished [d] finished := by
  refine ⟨discovered, ?_, ?_⟩
  · intro d'
    exact ⟨.inl, fun hd' => hd'.elim id (h.met d')⟩
  · intro stack
    rw [List.singleton_append, walk, dif_pos (h.met d hd), if_pos hd]

/-- An operation is finished when the walk meets it again behind its undiscovered readers. -/
theorem WalksTo.finish {walked : List Digest} (hnew : d ∉ discovered)
    (h : dag.WalksTo (d :: discovered) finished ((dag.readers d).filter (· ∉ d :: discovered)) walked)
    (hopen : d ∉ walked) : dag.WalksTo discovered finished [d] (d :: walked) := by
  obtain ⟨discovered', hmem, hwalked⟩ := h
  refine ⟨discovered', ?_, ?_⟩
  · intro d'
    rw [hmem, List.mem_cons, List.mem_cons]
    tauto
  · intro stack
    rw [List.singleton_append, walk, dif_neg hnew, push_reverse, hwalked, walk,
      dif_pos ((hmem d).2 (.inl List.mem_cons_self)), if_neg hopen]

variable {bound : Nat}

theorem Ranked.reader (hrank : dag.Ranked rank bound) {r : Digest} (hr : r ∈ dag.readers d) :
    rank d < rank r ∧ rank r < bound := by
  obtain ⟨n, hn, rfl, -⟩ := mem_readers_iff.1 hr
  exact ⟨hrank.lt d _ hr, hrank.bounded n hn⟩

/-- A walk from a reader finishes it and does not come back to what it reads. -/
theorem finishesTo_reader (hrank : dag.Ranked rank bound) {depth : Nat} (hdepth : bound ≤ depth + 1 + rank d)
    {r : Digest} (hr : r ∈ dag.readers d) (h : dag.ReadersBehind finished) :
    r ∈ dag.finish depth r finished ∧ dag.FinishesTo rank (rank d + 1) finished (dag.finish depth r finished) := by
  obtain ⟨hlow, hlt⟩ := hrank.reader hr
  obtain ⟨hmem, hfinish⟩ := finishesTo_finish hrank depth hlt (by omega) h
  exact ⟨hmem, (FinishesTo.refl h).trans hfinish hlow⟩

/-- The walk from an operation on top of the stack finishes what the recursion finishes. -/
theorem walksTo_finish (hrank : dag.Ranked rank bound) (depth : Nat) (hd : rank d < bound)
    (hdepth : bound ≤ depth + rank d) (h : dag.Underway rank (rank d) discovered finished) :
    dag.WalksTo discovered finished [d] (dag.finish depth d finished) := by
  induction depth generalizing d discovered finished with
  | zero => omega
  | succ depth ih =>
      by_cases hmem : d ∈ finished
      · rw [finish_of_mem hmem]
        exact walksTo_of_mem h hmem
      have hnew : d ∉ discovered := fun hmet => hmem (h.mem_finished hmet (Nat.le_refl _))
      have hstep : ∀ r ∈ dag.readers d, ∀ finished, dag.ReadersBehind finished →
          r ∈ dag.finish depth r finished ∧
            dag.FinishesTo rank (rank d + 1) finished (dag.finish depth r finished) :=
        fun r hr finished hfinished => finishesTo_reader hrank hdepth hr hfinished
      have hwalk : ∀ r ∈ dag.readers d, ∀ discovered finished, dag.Underway rank (rank d + 1) discovered finished →
          dag.WalksTo discovered finished [r] (dag.finish depth r finished) := by
        intro r hr discovered finished hunderway
        obtain ⟨hlow, hlt⟩ := hrank.reader hr
        exact ih hlt (by omega) (hunderway.mono hlow)
      obtain ⟨hreaders, hfinishes⟩ := finishesTo_foldl hstep h.ordered
      have hwalked := walksTo_foldl hstep hwalk
        (fun r _ finished hr => finish_of_mem hr depth) (fun r hr => (hrank.reader hr).1) h.cons (fun r hr => hr)
      -- The readers have higher ranks, so none of their walks comes back to `d`.
      have hopen : d ∉ (dag.readers d).foldl (fun finished r => dag.finish depth r finished) finished := by
        intro hback
        rcases hfinishes.new d hback with hback | hback
        · exact hmem hback
        · omega
      rw [finish, if_neg hmem]
      exact hwalked.finish hnew hopen

/-- From nodes one after another the walks with the stack finish what the recursion finishes. -/
theorem foldl_visit (hrank : dag.Ranked rank dag.nodes.length) {nodes : List DagNode}
    (hnodes : ∀ n ∈ nodes, n ∈ dag.nodes) (h : dag.Underway rank 0 discovered finished) :
    (nodes.foldl dag.visit (discovered, finished)).2 =
      nodes.foldl (fun finished n => dag.finish dag.nodes.length n.digest finished) finished := by
  induction nodes generalizing discovered finished with
  | nil => rfl
  | cons n nodes ih =>
      obtain ⟨hn, hnodes⟩ := List.forall_mem_cons.1 hnodes
      rw [List.foldl_cons, List.foldl_cons]
      by_cases hd : n.digest ∈ discovered
      · have hvisit : dag.visit (discovered, finished) n = (discovered, finished) := if_pos hd
        rw [hvisit, finish_of_mem (h.mem_finished hd (Nat.zero_le _))]
        exact ih hnodes h
      · have hbound := hrank.bounded n hn
        obtain ⟨-, hfinishes⟩ := finishesTo_finish hrank dag.nodes.length hbound (by omega) h.ordered
        obtain ⟨discovered', hmem, hwalk⟩ :=
          walksTo_finish hrank dag.nodes.length hbound (by omega) (h.mono (Nat.zero_le _))
        have hvisit : dag.visit (discovered, finished) n =
            (discovered', dag.finish dag.nodes.length n.digest finished) := by
          rw [visit, if_neg hd, ← List.append_nil [n.digest], hwalk, walk]
        rw [hvisit]
        exact ih hnodes (h.finishesTo hfinishes hmem)

/-- Both walks lead to the same order. -/
theorem walkOrder_eq (hrank : dag.Ranked rank dag.nodes.length) : dag.walkOrder = dag.finishingOrder := by
  apply foldl_visit hrank fun _ hn => hn
  constructor
  · trivial
  · intro d hd
    cases hd
  · intro d hd
    cases hd

/-- What a step may add to a list, a fold of the step may add. -/
theorem mem_or_of_mem_foldl {α : Type} {step : List Digest → α → List Digest} {p : Digest → Prop} {xs : List α}
    (hstep : ∀ x ∈ xs, ∀ ds, ∀ d ∈ step ds x, d ∈ ds ∨ p d) {ds : List Digest} (h : d ∈ xs.foldl step ds) :
    d ∈ ds ∨ p d := by
  induction xs generalizing ds with
  | nil => exact .inl h
  | cons x xs ih =>
      obtain ⟨hx, hxs⟩ := List.forall_mem_cons.1 hstep
      rcases ih hxs h with hd | hd
      · exact hx ds d hd
      · exact .inr hd

/-- A walk from a node finishes nodes only. -/
theorem mem_or_of_mem_finish {depth : Nat} (hd : d ∈ dag.nodes.map (·.digest)) {d' : Digest}
    (h : d' ∈ dag.finish depth d finished) : d' ∈ finished ∨ d' ∈ dag.nodes.map (·.digest) := by
  induction depth generalizing d d' finished with
  | zero => exact .inl h
  | succ depth ih =>
      rw [finish] at h
      split at h
      · exact .inl h
      rcases List.mem_cons.1 h with rfl | h
      · exact .inr hd
      · refine mem_or_of_mem_foldl ?_ h
        intro r hr finished d' hd'
        obtain ⟨n, hn, rfl, -⟩ := mem_readers_iff.1 hr
        exact ih (List.mem_map_of_mem hn) hd'

theorem mem_finishingOrder_iff (hrank : dag.Ranked rank dag.nodes.length) :
    d ∈ dag.finishingOrder ↔ d ∈ dag.nodes.map (·.digest) := by
  constructor
  · intro h
    have hmem : d ∈ ([] : List Digest) ∨ d ∈ dag.nodes.map (·.digest) := by
      refine mem_or_of_mem_foldl ?_ h
      intro n hn finished d' hd'
      exact mem_or_of_mem_finish (List.mem_map_of_mem hn) hd'
    exact hmem.resolve_left List.not_mem_nil
  · intro h
    obtain ⟨n, hn, rfl⟩ := List.mem_map.1 h
    exact (readersBehind_finishingOrder hrank).2 n hn

namespace ReadersBehind

theorem nodup {ds : List Digest} (h : dag.ReadersBehind ds) : ds.Nodup := by
  induction ds with
  | nil => exact List.nodup_nil
  | cons d ds ih => exact List.nodup_cons.2 ⟨h.2.1, ih h.2.2⟩

/-- What is read stands in front of its readers. -/
theorem idxOf_lt {ds : List Digest} (h : dag.ReadersBehind ds) {r : Digest} (hd : d ∈ ds) (hr : r ∈ dag.readers d) :
    ds.idxOf d < ds.idxOf r := by
  induction ds with
  | nil => cases hd
  | cons first ds ih =>
      obtain ⟨hreaders, hnew, hbehind⟩ := h
      rcases List.mem_cons.1 hd with rfl | hd
      · have hne : d ≠ r := fun heq => hnew (heq ▸ hreaders r hr)
        rw [List.idxOf_cons_self, List.idxOf_cons_ne _ hne]
        exact Nat.succ_pos _
      · have hmem := hbehind.mem hd hr
        have hned : first ≠ d := fun heq => hnew (heq ▸ hd)
        have hner : first ≠ r := fun heq => hnew (heq ▸ hmem)
        rw [List.idxOf_cons_ne _ hned, List.idxOf_cons_ne _ hner]
        exact Nat.succ_lt_succ (ih hbehind hd)

end ReadersBehind

/-- Where digests differ an operation has the inputs of its node. -/
theorem mem_inputsOf_iff (h : (dag.nodes.map (·.digest)).Nodup) {input : Digest} :
    input ∈ dag.inputsOf d ↔ ∃ n ∈ dag.nodes, n.digest = d ∧ input ∈ n.inputs := by
  constructor
  · intro hinput
    exact mem_readers_iff.1 (mem_readers_of_mem_inputsOf hinput)
  · rintro ⟨n, hn, rfl, hinput⟩
    unfold inputsOf
    split
    · rename_i n' hn'
      have hdigest : n'.digest = n.digest := by simpa using List.find?_some hn'
      rwa [List.inj_on_of_nodup_map h (List.mem_of_find?_eq_some hn') hn hdigest]
    · rename_i hnone
      have hne := List.find?_eq_none.1 hnone n hn
      simp at hne

theorem mem_dependencies_iff (h : (dag.nodes.map (·.digest)).Nodup) {input : Digest} :
    input ∈ dag.dependencies d ↔ ∃ n ∈ dag.nodes, n.digest = d ∧ input ∈ n.inputs := by
  rw [dependencies, List.mem_mergeSort, List.mem_eraseDups, mem_inputsOf_iff h]

/-- In the order of what is accepted every operation occurs once, and its inputs in front of it; the order is that of
the walk with a stack. The dependencies of an operation are its inputs, each once and ascending. -/
theorem order_ofDefinition {d : Definition} {dag : Dag} (h : ofDefinition d = .ok dag) :
    (∃ order, dag.topologicalOrder = .ok order ∧ order = dag.walkOrder ∧ order.Perm (d.ops.map (·.digest)) ∧
      ∀ o ∈ d.ops, ∀ r ∈ o.inputs, order.idxOf r.digest < order.idxOf o.digest) ∧
    ∀ digest, (dag.dependencies digest).Pairwise (·.text < ·.text) ∧
      (∀ input, input ∈ dag.dependencies digest ↔
        ∃ o ∈ d.ops, o.digest = digest ∧ ∃ r ∈ o.inputs, r.digest = input) ∧
      ((∀ o ∈ d.ops, o.digest ≠ digest) → dag.dependencies digest = []) := by
  obtain ⟨hd, rfl⟩ := ofDefinition_eq_ok_iff.1 h
  have hrank := ranked_ofOps hd.ops
  have hbehind := (readersBehind_finishingOrder hrank).1
  have hnodes : (ofOps d.ops).nodes.map (·.digest) = d.ops.map (·.digest) := by
    rw [ofOps, List.map_map]
    rfl
  have hmem : ∀ digest, digest ∈ (ofOps d.ops).finishingOrder ↔ digest ∈ d.ops.map (·.digest) := by
    intro digest
    rw [mem_finishingOrder_iff hrank, hnodes]
  have hdependencies : ∀ digest input, input ∈ (ofOps d.ops).dependencies digest ↔
      ∃ o ∈ d.ops, o.digest = digest ∧ ∃ r ∈ o.inputs, r.digest = input := by
    intro digest input
    rw [mem_dependencies_iff (nodup_ofOps hd.ops)]
    simp [ofOps, node]
  constructor
  · refine ⟨_, topologicalOrder_ofOps hd.ops, (walkOrder_eq hrank).symm, ?_, ?_⟩
    · exact (List.perm_ext_iff_of_nodup hbehind.nodup hd.ops.nodup).2 hmem
    · intro o ho r hr
      obtain ⟨p, hp, hdigest, -⟩ := hd.ops.provides ho hr
      have hread : r.digest ∈ (ofOps d.ops).finishingOrder := (hmem _).2 (hdigest ▸ List.mem_map_of_mem hp)
      exact hbehind.idxOf_lt hread
        (mem_readers_iff.2 ⟨node o, List.mem_map_of_mem ho, rfl, List.mem_map_of_mem hr⟩)
  · intro digest
    refine ⟨Digest.ascending_mergeSort (nodup_eraseDups _), hdependencies digest, ?_⟩
    intro hunknown
    rw [List.eq_nil_iff_forall_not_mem]
    intro input hinput
    obtain ⟨o, ho, hdigest, -⟩ := (hdependencies digest input).1 hinput
    exact hunknown o ho hdigest

theorem order_ofDefinition_stacked :
    ∃ dag order, ofDefinition stackedDefinition = .ok dag ∧ dag.topologicalOrder = .ok order ∧ order = dag.walkOrder ∧
      order.length = 3 ∧ order.idxOf sampleImage.digest < order.idxOf doubled.digest ∧
      order.idxOf doubled.digest < order.idxOf stacked.digest ∧
      (dag.dependencies stacked.digest).Pairwise (·.text < ·.text) ∧
      doubled.digest ∈ dag.dependencies stacked.digest ∧ sampleImage.digest ∈ dag.dependencies stacked.digest := by
  obtain ⟨dag, hdag⟩ := accepted_stacked
  obtain ⟨⟨order, horder, hwalk, hperm, hbefore⟩, hdependencies⟩ := order_ofDefinition hdag
  obtain ⟨hascending, hmem, -⟩ := hdependencies stacked.digest
  have hdoubled : doubled ∈ stackedDefinition.ops := by simp [stackedDefinition]
  have hstacked : stacked ∈ stackedDefinition.ops := by simp [stackedDefinition]
  have hreads : ⟨doubled.digest, 0⟩ ∈ stacked.inputs := List.mem_cons_self
  have hreads' : ⟨sampleImage.digest, 0⟩ ∈ stacked.inputs := List.mem_cons_of_mem _ List.mem_cons_self
  refine ⟨dag, order, hdag, horder, hwalk, ?_, ?_, ?_, hascending, ?_, ?_⟩
  · exact hperm.length_eq
  · exact hbefore doubled hdoubled ⟨sampleImage.digest, 0⟩ List.mem_cons_self
  · exact hbefore stacked hstacked _ hreads
  · exact (hmem _).2 ⟨stacked, hstacked, rfl, _, hreads, rfl⟩
  · exact (hmem _).2 ⟨stacked, hstacked, rfl, _, hreads', rfl⟩

end BuildGraph.Dag
