import BuildGraph.Definition.Dag
import BuildGraph.Proofs.Check
import BuildGraph.Proofs.Lists
import Mathlib.Data.List.Induction

/-!
# Definitions that hold together

`Listing` says what is asked of the operations of a definition, one after another from the front; a definition is
well formed if its operations are a listing and its root is an output of one of them. `checkOps` decides the
first and `checkRoot` the second.
-/

namespace BuildGraph

/-- One of some operations has the output. -/
def Provides (ops : List DefinitionOp) (r : InputRef) : Prop :=
  ∃ p ∈ ops, p.digest = r.digest ∧ r.index < p.op.outputCount

/-- Operations that fit their digests, are valid, differ in their digests, and read only what is in front. -/
inductive Listing : List DefinitionOp → Prop
  | nil : Listing []
  | snoc {ops : List DefinitionOp} {o : DefinitionOp} (h : Listing ops)
      (hdigest : o.computeDigest = o.digest) (hvalid : o.op.validate o.inputs.length = .ok ())
      (hnew : ∀ p ∈ ops, p.digest ≠ o.digest) (hinputs : ∀ r ∈ o.inputs, Provides ops r) :
      Listing (ops ++ [o])

/-- The operations are a listing, and the root is an output of one of them. -/
structure Definition.WellFormed (d : Definition) : Prop where
  ops : Listing d.ops
  root : ∀ r, d.root = some r → Provides d.ops r

theorem Provides.append {ops : List DefinitionOp} {r : InputRef} (h : Provides ops r)
    (more : List DefinitionOp) : Provides (ops ++ more) r := by
  obtain ⟨p, hp, hr⟩ := h
  exact ⟨p, List.mem_append_left _ hp, hr⟩

namespace Listing

theorem of_snoc {ops : List DefinitionOp} {o : DefinitionOp} (h : Listing (ops ++ [o])) :
    Listing ops ∧ o.computeDigest = o.digest ∧ o.op.validate o.inputs.length = .ok () ∧
      (∀ p ∈ ops, p.digest ≠ o.digest) ∧ ∀ r ∈ o.inputs, Provides ops r := by
  generalize hops : ops ++ [o] = all at h
  cases h with
  | nil => simp at hops
  | snoc h hdigest hvalid hnew hinputs =>
      obtain ⟨rfl, hlast⟩ := List.append_inj' hops rfl
      obtain rfl := List.singleton_inj.1 hlast
      exact ⟨h, hdigest, hvalid, hnew, hinputs⟩

theorem of_append {before after : List DefinitionOp} (h : Listing (before ++ after)) :
    Listing before := by
  induction after using List.reverseRecOn with
  | nil => rwa [List.append_nil] at h
  | append_singleton after o ih =>
      rw [← List.append_assoc] at h
      exact ih h.of_snoc.1

theorem nodup {ops : List DefinitionOp} (h : Listing ops) : (ops.map (·.digest)).Nodup := by
  induction h with
  | nil => exact List.nodup_nil
  | @snoc ops o h hdigest hvalid hnew hinputs ih =>
      rw [List.map_append, List.nodup_append]
      refine ⟨ih, List.nodup_singleton _, ?_⟩
      intro d hd d' hd'
      obtain ⟨p, hp, rfl⟩ := List.mem_map.1 hd
      obtain rfl : d' = o.digest := List.mem_singleton.1 hd'
      exact hnew p hp

/-- What is read by an operation is provided. -/
theorem provides {ops : List DefinitionOp} (h : Listing ops) {o : DefinitionOp} (ho : o ∈ ops)
    {r : InputRef} (hr : r ∈ o.inputs) : Provides ops r := by
  induction h with
  | nil => cases ho
  | snoc h hdigest hvalid hnew hinputs ih =>
      rcases List.mem_append.1 ho with ho | ho
      · exact (ih ho).append _
      · rw [List.mem_singleton.1 ho] at hr
        exact (hinputs r hr).append _

end Listing

namespace Dag

/-- What is known of some operations once they have been checked. -/
def entries (ops : List DefinitionOp) : Known := ops.map fun o => (o.digest, o.op.outputCount)

theorem lookup_entries_eq_none_iff {ops : List DefinitionOp} {d : Digest} :
    (entries ops).lookup d = none ↔ ∀ p ∈ ops, p.digest ≠ d := by
  rw [List.lookup_eq_none_iff]
  unfold entries
  simp only [List.forall_mem_map, bne_iff_ne, ne_eq]
  exact forall₂_congr fun p _ => not_congr eq_comm

theorem map_fst_entries (ops : List DefinitionOp) : (entries ops).map (·.1) = ops.map (·.digest) := by
  rw [entries, List.map_map]
  rfl

/-- What is known provides a reference if its index is below the count that is found. -/
theorem provides_iff {ops : List DefinitionOp} (h : (ops.map (·.digest)).Nodup) {r : InputRef} :
    Provides ops r ↔ ∃ count, (entries ops).lookup r.digest = some count ∧ r.index < count := by
  rw [← map_fst_entries] at h
  simp only [lookup_eq_some_iff_mem h]
  constructor
  · rintro ⟨p, hp, hd, hindex⟩
    exact ⟨p.op.outputCount, List.mem_map.2 ⟨p, hp, by rw [hd]⟩, hindex⟩
  · rintro ⟨count, hmem, hindex⟩
    obtain ⟨p, hp, heq⟩ := List.mem_map.1 hmem
    obtain ⟨hd, rfl⟩ := Prod.mk.inj heq
    exact ⟨p, hp, hd, hindex⟩

theorem checkInput_eq_ok_iff {all ops : List DefinitionOp} (h : (ops.map (·.digest)).Nodup) {op : Digest}
    {r : InputRef} : checkInput all (entries ops) op r = .ok () ↔ Provides ops r := by
  rw [provides_iff h]
  unfold checkInput
  cases (entries ops).lookup r.digest with
  | none =>
      dsimp only
      split <;> simp
  | some count => by_cases hindex : r.index < count <;> simp [hindex]

/-- An operation passes if the list with it is a listing like the list in front of it. -/
theorem checkOp_eq_ok_iff {all ops : List DefinitionOp} (h : Listing ops) {o : DefinitionOp} :
    checkOp all (entries ops) o = .ok () ↔ Listing (ops ++ [o]) := by
  unfold checkOp
  simp only [check_bind_eq_ok_iff, refuse_eq_ok_iff, ne_eq, not_not, mapError_eq_ok_iff, forM_eq_ok_iff,
    Option.not_isSome_iff_eq_none, lookup_entries_eq_none_iff]
  constructor
  · rintro ⟨hdigest, hvalid, hnew, hinputs⟩
    exact .snoc h hdigest hvalid hnew fun r hr => (checkInput_eq_ok_iff h.nodup).1 (hinputs r hr)
  · intro hsnoc
    obtain ⟨-, hdigest, hvalid, hnew, hinputs⟩ := hsnoc.of_snoc
    exact ⟨hdigest, hvalid, hnew, fun r hr => (checkInput_eq_ok_iff h.nodup).2 (hinputs r hr)⟩

theorem checkOps_eq_ok_iff {all ops more : List DefinitionOp} (h : Listing ops) {known : Known} :
    checkOps all (entries ops) more = .ok known ↔
      Listing (ops ++ more) ∧ known = entries (ops ++ more) := by
  induction more generalizing ops with
  | nil => simp [checkOps, h, eq_comm]
  | cons o more ih =>
      have hentries : entries ops ++ [(o.digest, o.op.outputCount)] = entries (ops ++ [o]) := by
        simp [entries]
      have hsplit : ops ++ o :: more = (ops ++ [o]) ++ more := by simp
      rw [checkOps, check_bind_eq_ok_iff, hentries, hsplit]
      constructor
      · rintro ⟨hop, hmore⟩
        exact (ih ((checkOp_eq_ok_iff h).1 hop)).1 hmore
      · rintro ⟨hlisting, hknown⟩
        have hop := hlisting.of_append
        exact ⟨(checkOp_eq_ok_iff h).2 hop, (ih hop).2 ⟨hlisting, hknown⟩⟩

theorem checkRoot_eq_ok_iff {ops : List DefinitionOp} (h : (ops.map (·.digest)).Nodup)
    {root : Option InputRef} :
    checkRoot (entries ops) root = .ok () ↔ ∀ r, root = some r → Provides ops r := by
  cases root with
  | none => simp [checkRoot]
  | some r =>
      simp only [Option.some.injEq, forall_eq', provides_iff h]
      rw [checkRoot]
      cases hlookup : (entries ops).lookup r.digest with
      | none => simp
      | some count => by_cases hindex : r.index < count <;> simp [hindex]

end Dag

end BuildGraph
