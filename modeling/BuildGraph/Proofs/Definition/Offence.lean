import BuildGraph.Proofs.Definition.Order

/-!
# Why a definition is refused

A definition holds together (`Definition.Coherent`) or it has a first offence, and it is refused for that one.
The operations are looked at in their order. Of an operation the digest is looked at first, then whether it could
be carried out, whether it is new, and its inputs from left to right; the root is looked at when all operations
have passed. `InputOffence`, `OpOffence` and `Definition.Offence` list what can be wrong, each with what has been
found in order before it is looked for.

No offence is a cycle. An operation can only read what is in front of it, so the operations that pass have none.
-/

namespace BuildGraph

/-- Every operation fits its digest and could be carried out, no digest is listed twice, and all that is read is
an output of an operation in front. The root is an output of one of the operations. -/
structure Definition.Coherent (d : Definition) : Prop where
  digest : ∀ o ∈ d.ops, o.computeDigest = o.digest
  valid : ∀ o ∈ d.ops, o.op.validate o.inputs.length = .ok ()
  nodup : (d.ops.map (·.digest)).Nodup
  inputs : ∀ before o after, d.ops = before ++ o :: after → ∀ r ∈ o.inputs, Provides before r
  root : ∀ r, d.root = some r → Provides d.ops r

/-- What is wrong with an input of an operation that is listed in `all`, behind `before`. -/
inductive InputOffence (all before : List DefinitionOp) (op : Digest) (r : InputRef) : DagError → Prop
  | outOfOrder (hbefore : ∀ p ∈ before, p.digest ≠ r.digest) (hall : ∃ p ∈ all, p.digest = r.digest) :
      InputOffence all before op r (.outOfOrder op r.digest)
  | danglingInput (hall : ∀ p ∈ all, p.digest ≠ r.digest) :
      InputOffence all before op r (.danglingInput op r.digest)
  | missingOutput {p : DefinitionOp} (hp : p ∈ before) (hdigest : p.digest = r.digest)
      (hindex : p.op.outputCount ≤ r.index) :
      InputOffence all before op r (.missingOutput op r.digest r.index)

/-- What is wrong with an operation that is listed in `all`, behind `before`. -/
inductive OpOffence (all before : List DefinitionOp) (o : DefinitionOp) : DagError → Prop
  | digestMismatch (hdigest : o.computeDigest ≠ o.digest) :
      OpOffence all before o (.digestMismatch o.digest o.computeDigest)
  | invalidOp {reason : InvalidOp} (hdigest : o.computeDigest = o.digest)
      (hinvalid : o.op.validate o.inputs.length = .error reason) :
      OpOffence all before o (.invalidOp o.digest reason)
  | duplicateOp (hdigest : o.computeDigest = o.digest) (hvalid : o.op.validate o.inputs.length = .ok ())
      (hlisted : ∃ p ∈ before, p.digest = o.digest) :
      OpOffence all before o (.duplicateOp o.digest)
  | input {e : DagError} {left : List InputRef} {r : InputRef} {right : List InputRef}
      (hdigest : o.computeDigest = o.digest) (hvalid : o.op.validate o.inputs.length = .ok ())
      (hnew : ∀ p ∈ before, p.digest ≠ o.digest) (hinputs : o.inputs = left ++ r :: right)
      (hleft : ∀ r ∈ left, Provides before r) (hr : InputOffence all before o.digest r e) :
      OpOffence all before o e

/-- What is wrong with a root, where all operations are in order. -/
inductive RootOffence (ops : List DefinitionOp) (r : InputRef) : DagError → Prop
  | danglingRoot (hops : ∀ p ∈ ops, p.digest ≠ r.digest) : RootOffence ops r (.danglingRoot r.digest)
  | danglingRootOutput {p : DefinitionOp} (hp : p ∈ ops) (hdigest : p.digest = r.digest)
      (hindex : p.op.outputCount ≤ r.index) : RootOffence ops r (.danglingRootOutput r.digest r.index)

/-- The first offence of a definition: that of the first operation that is not in order, or that of its root. -/
inductive Definition.Offence (d : Definition) : DagError → Prop
  | op {e : DagError} {before : List DefinitionOp} {o : DefinitionOp} {after : List DefinitionOp}
      (hops : d.ops = before ++ o :: after) (hbefore : Listing before)
      (ho : OpOffence d.ops before o e) : Offence d e
  | root {e : DagError} {r : InputRef} (hops : Listing d.ops) (hroot : d.root = some r)
      (hr : RootOffence d.ops r e) : Offence d e

/-- What has been found of the operations of a listing, those in front of one and that one itself. -/
theorem Listing.of_split {before after : List DefinitionOp} {o : DefinitionOp}
    (h : Listing (before ++ o :: after)) :
    Listing before ∧ o.computeDigest = o.digest ∧ o.op.validate o.inputs.length = .ok () ∧
      (∀ p ∈ before, p.digest ≠ o.digest) ∧ ∀ r ∈ o.inputs, Provides before r := by
  rw [List.append_cons] at h
  exact h.of_append.of_snoc

/-- A list whose operations are in order, each behind those in front of it, is a listing. -/
theorem listing_of_forall {ops : List DefinitionOp} (hdigest : ∀ o ∈ ops, o.computeDigest = o.digest)
    (hvalid : ∀ o ∈ ops, o.op.validate o.inputs.length = .ok ()) (hnodup : (ops.map (·.digest)).Nodup)
    (hinputs : ∀ before o after, ops = before ++ o :: after → ∀ r ∈ o.inputs, Provides before r) :
    Listing ops := by
  induction ops using List.reverseRecOn with
  | nil => exact .nil
  | append_singleton ops o ih =>
      have hlast : o ∈ ops ++ [o] := List.mem_append_right _ (List.mem_singleton_self o)
      rw [List.map_append, List.nodup_append] at hnodup
      obtain ⟨hnodup, -, hdisjoint⟩ := hnodup
      have hops : Listing ops := by
        apply ih
        · exact fun p hp => hdigest p (List.mem_append_left _ hp)
        · exact fun p hp => hvalid p (List.mem_append_left _ hp)
        · exact hnodup
        · intro before p after hsplit
          apply hinputs before p (after ++ [o])
          rw [hsplit, List.append_assoc, List.cons_append]
      apply Listing.snoc hops (hdigest o hlast) (hvalid o hlast)
      · intro p hp
        exact hdisjoint p.digest (List.mem_map_of_mem hp) o.digest (List.mem_singleton_self _)
      · exact hinputs ops o [] rfl

theorem Definition.coherent_iff (d : Definition) : d.Coherent ↔ d.WellFormed := by
  constructor
  · intro h
    exact ⟨listing_of_forall h.digest h.valid h.nodup h.inputs, h.root⟩
  · intro h
    have hsplit : ∀ o ∈ d.ops, ∃ before after, d.ops = before ++ o :: after :=
      fun o ho => List.append_of_mem ho
    have hfits : ∀ before o after, d.ops = before ++ o :: after →
        o.computeDigest = o.digest ∧ o.op.validate o.inputs.length = .ok () ∧
          (∀ p ∈ before, p.digest ≠ o.digest) ∧ ∀ r ∈ o.inputs, Provides before r := by
      intro before o after hops
      have hlisting := h.ops
      rw [hops] at hlisting
      exact hlisting.of_split.2
    constructor
    · intro o ho
      obtain ⟨before, after, hops⟩ := hsplit o ho
      exact (hfits before o after hops).1
    · intro o ho
      obtain ⟨before, after, hops⟩ := hsplit o ho
      exact (hfits before o after hops).2.1
    · exact h.ops.nodup
    · exact fun before o after hops => (hfits before o after hops).2.2.2
    · exact h.root

namespace Dag

theorem lookup_entries_eq_some {ops : List DefinitionOp} {d : Digest} {count : Nat}
    (h : (entries ops).lookup d = some count) : ∃ p ∈ ops, p.digest = d ∧ p.op.outputCount = count := by
  obtain ⟨p, hp, heq⟩ := List.mem_map.1 (mem_of_lookup h)
  obtain ⟨hdigest, hcount⟩ := Prod.mk.inj heq
  exact ⟨p, hp, hdigest, hcount⟩

/-- Where digests differ an operation is found by its own. -/
theorem lookup_entries_of_mem {ops : List DefinitionOp} (h : (ops.map (·.digest)).Nodup) {p : DefinitionOp}
    (hp : p ∈ ops) : (entries ops).lookup p.digest = some p.op.outputCount := by
  rw [← map_fst_entries] at h
  exact (lookup_eq_some_iff_mem h).2 (List.mem_map.2 ⟨p, hp, rfl⟩)

theorem checkInput_eq_error_iff {all before : List DefinitionOp} (hnodup : (before.map (·.digest)).Nodup)
    (hsubset : before ⊆ all) {op : Digest} {r : InputRef} {e : DagError} :
    checkInput all (entries before) op r = .error e ↔ InputOffence all before op r e := by
  unfold checkInput
  constructor
  · intro h
    cases hlookup : (entries before).lookup r.digest with
    | some count =>
        obtain ⟨p, hp, hdigest, rfl⟩ := lookup_entries_eq_some hlookup
        rw [hlookup] at h
        dsimp only at h
        split at h
        · cases h
        · rename_i hindex
          cases h
          exact .missingOutput hp hdigest (Nat.not_lt.1 hindex)
    | none =>
        rw [hlookup] at h
        dsimp only at h
        split at h
        · rename_i hany
          cases h
          exact .outOfOrder (lookup_entries_eq_none_iff.1 hlookup) (by simpa using hany)
        · rename_i hany
          cases h
          exact .danglingInput (by simpa using hany)
  · intro h
    cases h with
    | outOfOrder hbefore hall =>
        have hany : all.any (·.digest == r.digest) = true := by simpa using hall
        rw [lookup_entries_eq_none_iff.2 hbefore]
        simp only [hany, if_true]
    | danglingInput hall =>
        have hany : ¬all.any (·.digest == r.digest) = true := by simpa using hall
        rw [lookup_entries_eq_none_iff.2 fun p hp => hall p (hsubset hp)]
        simp only [hany]
        rfl
    | missingOutput hp hdigest hindex =>
        rw [← hdigest, lookup_entries_of_mem hnodup hp]
        exact if_neg (Nat.not_lt.2 hindex)

theorem checkOp_eq_error_iff {all before : List DefinitionOp} (hbefore : Listing before)
    (hsubset : before ⊆ all) {o : DefinitionOp} {e : DagError} :
    checkOp all (entries before) o = .error e ↔ OpOffence all before o e := by
  have hlisted : ((entries before).lookup o.digest).isSome ↔ ∃ p ∈ before, p.digest = o.digest := by
    rw [← not_iff_not, Option.not_isSome_iff_eq_none, lookup_entries_eq_none_iff]
    simp
  unfold checkOp
  simp only [check_bind_eq_error_iff, refuse_eq_error_iff, mapError_eq_error_iff, forM_eq_error_iff, ne_eq,
    not_not, mapError_eq_ok_iff, hlisted, checkInput_eq_ok_iff hbefore.nodup,
    checkInput_eq_error_iff hbefore.nodup hsubset]
  constructor
  · rintro (⟨hdigest, rfl⟩ | ⟨hdigest, ⟨reason, hinvalid, rfl⟩ | ⟨hvalid, ⟨hlisted, rfl⟩ | ⟨hnew, hinput⟩⟩⟩)
    · exact .digestMismatch hdigest
    · exact .invalidOp hdigest hinvalid
    · exact .duplicateOp hdigest hvalid hlisted
    · obtain ⟨left, r, right, hinputs, hleft, hr⟩ := hinput
      exact .input hdigest hvalid (fun p hp heq => hnew ⟨p, hp, heq⟩) hinputs hleft hr
  · intro h
    cases h with
    | digestMismatch hdigest => exact .inl ⟨hdigest, rfl⟩
    | invalidOp hdigest hinvalid => exact .inr ⟨hdigest, .inl ⟨_, hinvalid, rfl⟩⟩
    | duplicateOp hdigest hvalid hlisted => exact .inr ⟨hdigest, .inr ⟨hvalid, .inl ⟨hlisted, rfl⟩⟩⟩
    | input hdigest hvalid hnew hinputs hleft hr =>
        refine .inr ⟨hdigest, .inr ⟨hvalid, .inr ⟨?_, _, _, _, hinputs, hleft, hr⟩⟩⟩
        rintro ⟨p, hp, heq⟩
        exact hnew p hp heq

/-- The operations behind a listing fail at the first one that does not make the listing longer. -/
theorem checkOps_eq_error_iff {all ops more : List DefinitionOp} (h : Listing ops) (hsubset : ops ++ more ⊆ all)
    {e : DagError} :
    checkOps all (entries ops) more = .error e ↔
      ∃ before o after, more = before ++ o :: after ∧ Listing (ops ++ before) ∧
        OpOffence all (ops ++ before) o e := by
  induction more generalizing ops with
  | nil => simp [checkOps]
  | cons o more ih =>
      have hentries : entries ops ++ [(o.digest, o.op.outputCount)] = entries (ops ++ [o]) := by
        simp [entries]
      have hops : ops ⊆ all := fun p hp => hsubset (List.mem_append_left _ hp)
      rw [checkOps, check_bind_eq_error_iff, checkOp_eq_error_iff h hops, checkOp_eq_ok_iff h, hentries]
      rw [List.append_cons] at hsubset
      constructor
      · rintro (ho | ⟨hnext, hmore⟩)
        · exact ⟨[], o, more, rfl, by rwa [List.append_nil], by rwa [List.append_nil]⟩
        · obtain ⟨before, p, after, rfl, hbefore, hp⟩ := (ih hnext hsubset).1 hmore
          rw [← List.append_cons] at hbefore hp
          exact ⟨o :: before, p, after, rfl, hbefore, hp⟩
      · rintro ⟨before, p, after, hsplit, hbefore, hp⟩
        cases before with
        | nil =>
            obtain ⟨rfl, rfl⟩ := List.cons.inj hsplit
            rw [List.append_nil] at hp
            exact .inl hp
        | cons b before =>
            obtain ⟨rfl, rfl⟩ := List.cons.inj hsplit
            rw [List.append_cons] at hbefore hp
            have hnext := hbefore.of_append
            exact .inr ⟨hnext, (ih hnext hsubset).2 ⟨before, p, after, rfl, hbefore, hp⟩⟩

theorem checkRoot_eq_error_iff {ops : List DefinitionOp} (hnodup : (ops.map (·.digest)).Nodup)
    {root : Option InputRef} {e : DagError} :
    checkRoot (entries ops) root = .error e ↔ ∃ r, root = some r ∧ RootOffence ops r e := by
  cases root with
  | none => simp [checkRoot]
  | some r =>
      simp only [Option.some.injEq, exists_eq_left']
      rw [checkRoot]
      constructor
      · intro h
        cases hlookup : (entries ops).lookup r.digest with
        | none =>
            rw [hlookup] at h
            cases h
            exact .danglingRoot (lookup_entries_eq_none_iff.1 hlookup)
        | some count =>
            obtain ⟨p, hp, hdigest, rfl⟩ := lookup_entries_eq_some hlookup
            rw [hlookup] at h
            dsimp only at h
            split at h
            · cases h
            · rename_i hindex
              cases h
              exact .danglingRootOutput hp hdigest (Nat.not_lt.1 hindex)
      · intro h
        cases h with
        | danglingRoot hops => rw [lookup_entries_eq_none_iff.2 hops]
        | danglingRootOutput hp hdigest hindex =>
            rw [← hdigest, lookup_entries_of_mem hnodup hp]
            exact if_neg (Nat.not_lt.2 hindex)

/-- A definition is refused for its first offence. -/
theorem ofDefinition_eq_error_iff {d : Definition} {e : DagError} :
    ofDefinition d = .error e ↔ d.Offence e := by
  have hops : checkOps d.ops [] d.ops = .error e ↔ ∃ before o after, d.ops = before ++ o :: after ∧
      Listing before ∧ OpOffence d.ops before o e :=
    checkOps_eq_error_iff .nil (List.Subset.refl d.ops)
  have hlisting : ∀ known, checkOps d.ops [] d.ops = .ok known ↔ Listing d.ops ∧ known = entries d.ops :=
    fun _ => checkOps_eq_ok_iff .nil
  rw [ofDefinition, bind_eq_error_iff, hops]
  constructor
  · rintro (⟨before, o, after, hsplit, hbefore, ho⟩ | ⟨known, hknown, h⟩)
    · exact .op hsplit hbefore ho
    · obtain ⟨hlist, rfl⟩ := (hlisting known).1 hknown
      rw [check_bind_eq_error_iff, checkRoot_eq_error_iff hlist.nodup] at h
      rcases h with ⟨r, hroot, hr⟩ | ⟨-, h⟩
      · exact .root hlist hroot hr
      · -- the operations of a listing have an order
        change ((ofOps d.ops).topologicalOrder >>= fun _ => pure (ofOps d.ops)) = .error e at h
        rw [topologicalOrder_ofOps hlist] at h
        cases h
  · intro h
    cases h with
    | op hsplit hbefore ho => exact .inl ⟨_, _, _, hsplit, hbefore, ho⟩
    | root hlist hroot hr =>
        refine .inr ⟨_, (hlisting _).2 ⟨hlist, rfl⟩, ?_⟩
        rw [check_bind_eq_error_iff, checkRoot_eq_error_iff hlist.nodup]
        exact .inl ⟨_, hroot, hr⟩

end Dag

theorem Definition.Offence.ne_cycleDetected {d : Definition} {e : DagError} (h : d.Offence e) :
    e ≠ .cycleDetected := by
  cases h with
  | op _ _ ho =>
      cases ho with
      | input _ _ _ _ _ hr => cases hr <;> exact DagError.noConfusion
      | _ => exact DagError.noConfusion
  | root _ _ hr => cases hr <;> exact DagError.noConfusion

/-- Just the definitions that hold together are accepted, and any other is refused for its first offence, which
never is a cycle. -/
theorem Dag.ofDefinition_verdict (d : Definition) :
    ((∃ dag, ofDefinition d = .ok dag) ↔ d.Coherent) ∧
      (∀ e, ofDefinition d = .error e ↔ d.Offence e) ∧
      ofDefinition d ≠ .error .cycleDetected := by
  refine ⟨?_, fun e => ofDefinition_eq_error_iff, fun h => ?_⟩
  · rw [d.coherent_iff]
    constructor
    · rintro ⟨dag, h⟩
      exact (ofDefinition_eq_ok_iff.1 h).1
    · intro h
      exact ⟨_, ofDefinition_eq_ok_iff.2 ⟨h, rfl⟩⟩
  · exact (ofDefinition_eq_error_iff.1 h).ne_cycleDetected rfl

end BuildGraph
