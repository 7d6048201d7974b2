import BuildGraph.Proofs.Definition.WellFormed

/-!
# The finishing order

A depth-first walk along the readers finishes an operation once all its readers are finished, so with the
operation finished last in front every reader stands behind what it reads (`ReadersBehind`). The walk is cut off
at a depth. In a listing readers come later than what they read, so a walk from position `i` goes on for at most
as many steps as there are positions from `i` on, and the cut never shows.

`FinishesTo` is what one call of `finish` does: it finishes operations of some rank or a higher one, and keeps
those finished before.
-/

namespace BuildGraph.Dag

/-- Every operation of a list occurs once, and its readers behind it. -/
def ReadersBehind (dag : Dag) : List Digest → Prop
  | [] => True
  | d :: ds => (∀ r ∈ dag.readers d, r ∈ ds) ∧ d ∉ ds ∧ dag.ReadersBehind ds

/-- Readers have higher ranks than what they read, and all ranks are below a bound. -/
structure Ranked (dag : Dag) (rank : Digest → Nat) (bound : Nat) : Prop where
  lt : ∀ d, ∀ r ∈ dag.readers d, rank d < rank r
  bounded : ∀ n ∈ dag.nodes, rank n.digest < bound

/-- From one list of finished operations a walk may lead to another, which is ordered and has in addition
operations of rank `low` or higher. -/
structure FinishesTo (dag : Dag) (rank : Digest → Nat) (low : Nat) (before after : List Digest) : Prop where
  ordered : dag.ReadersBehind after
  keeps : ∀ d ∈ before, d ∈ after
  new : ∀ d ∈ after, d ∈ before ∨ low ≤ rank d

variable {dag : Dag} {rank : Digest → Nat} {bound : Nat}

theorem mem_readers_iff {d r : Digest} :
    r ∈ dag.readers d ↔ ∃ n ∈ dag.nodes, n.digest = r ∧ d ∈ n.inputs := by
  unfold readers
  simp only [List.mem_flatMap, List.mem_map, List.mem_filter, beq_iff_eq]
  constructor
  · rintro ⟨n, hn, d', ⟨hd, rfl⟩, hr⟩
    exact ⟨n, hn, hr, hd⟩
  · rintro ⟨n, hn, hr, hd⟩
    exact ⟨n, hn, d, ⟨hd, rfl⟩, hr⟩

/-- The readers of what is finished are finished. -/
theorem ReadersBehind.mem {ds : List Digest} (h : dag.ReadersBehind ds) {d r : Digest} (hd : d ∈ ds)
    (hr : r ∈ dag.readers d) : r ∈ ds := by
  induction ds with
  | nil => cases hd
  | cons d' ds ih =>
      obtain ⟨hreaders, -, hbehind⟩ := h
      rcases List.mem_cons.1 hd with rfl | hd
      · exact List.mem_cons_of_mem _ (hreaders r hr)
      · exact List.mem_cons_of_mem _ (ih hbehind hd)

theorem FinishesTo.refl {low : Nat} {finished : List Digest} (h : dag.ReadersBehind finished) :
    dag.FinishesTo rank low finished finished where
  ordered := h
  keeps := fun _ hd => hd
  new := fun _ hd => .inl hd

theorem FinishesTo.trans {low low' : Nat} {a b c : List Digest} (h : dag.FinishesTo rank low a b)
    (h' : dag.FinishesTo rank low' b c) (hle : low ≤ low') : dag.FinishesTo rank low a c where
  ordered := h'.ordered
  keeps := fun d hd => h'.keeps d (h.keeps d hd)
  new := by
    intro d hd
    rcases h'.new d hd with hd | hd
    · exact h.new d hd
    · exact .inr (Nat.le_trans hle hd)

/-- An operation is finished behind the walks from its readers, which do not come back to it. -/
theorem FinishesTo.cons {d : Digest} {finished walked : List Digest} (hnew : d ∉ finished)
    (h : dag.FinishesTo rank (rank d + 1) finished walked) (hreaders : ∀ r ∈ dag.readers d, r ∈ walked) :
    dag.FinishesTo rank (rank d) finished (d :: walked) where
  ordered := by
    refine ⟨hreaders, fun hback => ?_, h.ordered⟩
    rcases h.new d hback with hback | hback
    · exact hnew hback
    · exact Nat.not_succ_le_self _ hback
  keeps := fun d' hd' => List.mem_cons_of_mem _ (h.keeps d' hd')
  new := by
    intro d' hd'
    rcases List.mem_cons.1 hd' with rfl | hd'
    · exact .inr (Nat.le_refl _)
    · rcases h.new d' hd' with hd' | hd'
      · exact .inl hd'
      · exact .inr (Nat.le_of_succ_le hd')

/-- What holds of the walk from each of some operations holds of the walks from all of them in a row. -/
theorem finishesTo_foldl {low : Nat} {walk : List Digest → Digest → List Digest} {ds : List Digest}
    (hwalk : ∀ d ∈ ds, ∀ finished, dag.ReadersBehind finished →
      d ∈ walk finished d ∧ dag.FinishesTo rank low finished (walk finished d))
    {finished : List Digest} (h : dag.ReadersBehind finished) :
    (∀ d ∈ ds, d ∈ ds.foldl walk finished) ∧ dag.FinishesTo rank low finished (ds.foldl walk finished) := by
  induction ds generalizing finished with
  | nil => exact ⟨fun _ hd => absurd hd List.not_mem_nil, .refl h⟩
  | cons d ds ih =>
      obtain ⟨hmem, hstep⟩ := hwalk d List.mem_cons_self finished h
      obtain ⟨hmems, hsteps⟩ := ih (fun d hd => hwalk d (List.mem_cons_of_mem _ hd)) hstep.ordered
      refine ⟨?_, hstep.trans hsteps (Nat.le_refl low)⟩
      intro d' hd'
      rcases List.mem_cons.1 hd' with rfl | hd'
      · exact hsteps.keeps _ hmem
      · exact hmems d' hd'

/-- A walk that may go as deep as there are ranks left finishes the operation that it starts from. -/
theorem finishesTo_finish (hrank : dag.Ranked rank bound) (depth : Nat) {d : Digest}
    (hd : rank d < bound) (hdepth : bound ≤ depth + rank d) {finished : List Digest}
    (h : dag.ReadersBehind finished) :
    d ∈ dag.finish depth d finished ∧ dag.FinishesTo rank (rank d) finished (dag.finish depth d finished) := by
  induction depth generalizing d finished with
  | zero => omega
  | succ depth ih =>
      rw [finish]
      by_cases hmem : d ∈ finished
      · rw [if_pos hmem]
        exact ⟨hmem, .refl h⟩
      rw [if_neg hmem]
      have hwalk : ∀ r ∈ dag.readers d, ∀ finished, dag.ReadersBehind finished →
          r ∈ dag.finish depth r finished ∧
            dag.FinishesTo rank (rank d + 1) finished (dag.finish depth r finished) := by
        intro r hr finished hfinished
        obtain ⟨n, hn, rfl, -⟩ := mem_readers_iff.1 hr
        have hlt := hrank.lt d _ hr
        obtain ⟨hmem, hfinish⟩ := ih (hrank.bounded n hn) (by omega) hfinished
        exact ⟨hmem, (FinishesTo.refl hfinished).trans hfinish hlt⟩
      obtain ⟨hreaders, hfold⟩ := finishesTo_foldl hwalk h
      exact ⟨List.mem_cons_self, hfold.cons hmem hreaders⟩

/-- Every operation is finished, in front of its readers. -/
theorem readersBehind_finishingOrder (hrank : dag.Ranked rank dag.nodes.length) :
    dag.ReadersBehind dag.finishingOrder ∧ ∀ n ∈ dag.nodes, n.digest ∈ dag.finishingOrder := by
  have hwalk : ∀ d ∈ dag.nodes.map (·.digest), ∀ finished, dag.ReadersBehind finished →
      d ∈ dag.finish dag.nodes.length d finished ∧
        dag.FinishesTo rank 0 finished (dag.finish dag.nodes.length d finished) := by
    intro d hd finished hfinished
    obtain ⟨n, hn, rfl⟩ := List.mem_map.1 hd
    obtain ⟨hmem, hfinish⟩ :=
      finishesTo_finish hrank dag.nodes.length (hrank.bounded n hn) (by omega) hfinished
    exact ⟨hmem, (FinishesTo.refl hfinished).trans hfinish (Nat.zero_le _)⟩
  have hstart : dag.ReadersBehind [] := trivial
  obtain ⟨hmem, hfold⟩ := finishesTo_foldl hwalk hstart
  rw [List.foldl_map] at hmem hfold
  exact ⟨hfold.ordered, fun n hn => hmem n.digest (List.mem_map_of_mem hn)⟩

theorem mem_readers_of_mem_inputsOf {d input : Digest} (h : input ∈ dag.inputsOf d) :
    d ∈ dag.readers input := by
  unfold inputsOf at h
  split at h
  · rename_i n hn
    have hdigest := List.find?_some hn
    exact mem_readers_iff.2 ⟨n, List.mem_of_find?_eq_some hn, by simpa using hdigest, h⟩
  · cases h

/-- Where readers stand behind what they read, inputs stand in front of what reads them. -/
theorem isOrder_of_readersBehind {ds : List Digest} (h : dag.ReadersBehind ds) {earlier : List Digest}
    (hinputs : ∀ d ∈ ds, ∀ input ∈ dag.inputsOf d, input ∈ earlier ∨ input ∈ ds) :
    dag.isOrder earlier ds = true := by
  induction ds generalizing earlier with
  | nil => rfl
  | cons d ds ih =>
      obtain ⟨hreaders, hnew, hbehind⟩ := h
      rw [isOrder, Bool.and_eq_true, List.all_eq_true]
      constructor
      · intro input hinput
        have hreader := mem_readers_of_mem_inputsOf hinput
        rw [List.contains_iff_mem]
        rcases hinputs d List.mem_cons_self input hinput with hearlier | hmem
        · exact hearlier
        · exfalso
          rcases List.mem_cons.1 hmem with rfl | hmem
          · exact hnew (hreaders _ hreader)
          · exact hnew (hbehind.mem hmem hreader)
      · refine ih hbehind fun d' hd' input hinput => ?_
        rcases hinputs d' (List.mem_cons_of_mem _ hd') input hinput with hearlier | hmem
        · exact .inl (List.mem_cons_of_mem _ hearlier)
        · rcases List.mem_cons.1 hmem with rfl | hmem
          · exact .inl List.mem_cons_self
          · exact .inr hmem

/-- The graph of a listing. -/
def ofOps (ops : List DefinitionOp) : Dag := ⟨ops.map node⟩

theorem nodup_ofOps {ops : List DefinitionOp} (h : Listing ops) : ((ofOps ops).nodes.map (·.digest)).Nodup := by
  rw [ofOps, List.map_map]
  exact h.nodup

/-- In a listing every operation stands behind those that it reads. -/
theorem idxOf_lt_of_reads {ops : List DefinitionOp} (h : Listing ops) {o : DefinitionOp} (ho : o ∈ ops)
    {r : InputRef} (hr : r ∈ o.inputs) :
    (ops.map (·.digest)).idxOf r.digest < (ops.map (·.digest)).idxOf o.digest := by
  induction h with
  | nil => cases ho
  | @snoc ops last h hdigest hvalid hnew hinputs ih =>
      rw [List.map_append]
      rcases List.mem_append.1 ho with ho | ho
      · obtain ⟨p, hp, hdigest', -⟩ := h.provides ho hr
        have hread : r.digest ∈ ops.map (·.digest) := hdigest' ▸ List.mem_map_of_mem hp
        have hreader : o.digest ∈ ops.map (·.digest) := List.mem_map_of_mem ho
        rw [List.idxOf_append_of_mem hread, List.idxOf_append_of_mem hreader]
        exact ih ho
      · obtain rfl := List.mem_singleton.1 ho
        obtain ⟨p, hp, hdigest', -⟩ := hinputs r hr
        have hread : r.digest ∈ ops.map (·.digest) := hdigest' ▸ List.mem_map_of_mem hp
        have hreader : o.digest ∉ ops.map (·.digest) := by
          intro hmem
          obtain ⟨q, hq, heq⟩ := List.mem_map.1 hmem
          exact hnew q hq heq
        rw [List.idxOf_append_of_mem hread, List.idxOf_append_of_notMem hreader]
        have hlt := List.idxOf_lt_length_iff.2 hread
        omega

theorem ranked_ofOps {ops : List DefinitionOp} (h : Listing ops) :
    (ofOps ops).Ranked (fun d => (ops.map (·.digest)).idxOf d) (ofOps ops).nodes.length where
  lt := by
    intro d r hr
    obtain ⟨n, hn, rfl, hd⟩ := mem_readers_iff.1 hr
    obtain ⟨o, ho, rfl⟩ := List.mem_map.1 hn
    obtain ⟨i, hi, rfl⟩ := List.mem_map.1 hd
    exact idxOf_lt_of_reads h ho hi
  bounded := by
    intro n hn
    obtain ⟨o, ho, rfl⟩ := List.mem_map.1 hn
    have hmem : o.digest ∈ ops.map (·.digest) := List.mem_map_of_mem ho
    have hlength : (ops.map (·.digest)).length = (ofOps ops).nodes.length := by simp [ofOps]
    rw [← hlength]
    exact List.idxOf_lt_length_iff.2 hmem

/-- A listing has no cycles. -/
theorem topologicalOrder_ofOps {ops : List DefinitionOp} (h : Listing ops) :
    (ofOps ops).topologicalOrder = .ok (ofOps ops).finishingOrder := by
  obtain ⟨hbehind, hall⟩ := readersBehind_finishingOrder (ranked_ofOps h)
  have horder : (ofOps ops).isOrder [] (ofOps ops).finishingOrder = true := by
    refine isOrder_of_readersBehind hbehind fun d _ input hinput => .inr ?_
    obtain ⟨n, hn, -, hmem⟩ := mem_readers_iff.1 (mem_readers_of_mem_inputsOf hinput)
    obtain ⟨o, ho, rfl⟩ := List.mem_map.1 hn
    obtain ⟨r, hr, rfl⟩ := List.mem_map.1 hmem
    obtain ⟨p, hp, hdigest, -⟩ := h.provides ho hr
    rw [← hdigest]
    exact hall (node p) (List.mem_map_of_mem hp)
  rw [topologicalOrder, if_pos horder]

/-- Just the definitions that hold together are accepted. -/
theorem ofDefinition_eq_ok_iff {d : Definition} {dag : Dag} :
    ofDefinition d = .ok dag ↔ d.WellFormed ∧ dag = ofOps d.ops := by
  have hops : ∀ known, checkOps d.ops [] d.ops = .ok known ↔ Listing d.ops ∧ known = entries d.ops :=
    fun _ => checkOps_eq_ok_iff .nil
  simp only [ofDefinition, bind_eq_ok_iff, hops, pure, Except.pure, Except.ok.injEq]
  constructor
  · rintro ⟨known, ⟨hlisting, rfl⟩, ⟨⟩, hroot, order, horder, rfl⟩
    exact ⟨⟨hlisting, (checkRoot_eq_ok_iff hlisting.nodup).1 hroot⟩, rfl⟩
  · rintro ⟨⟨hlisting, hroot⟩, rfl⟩
    exact ⟨_, ⟨hlisting, rfl⟩, (), (checkRoot_eq_ok_iff hlisting.nodup).2 hroot, _,
      topologicalOrder_ofOps hlisting, rfl⟩

end BuildGraph.Dag
