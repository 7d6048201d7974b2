import BuildGraph.Proofs.Definition.Order
import BuildGraph.Proofs.Op.Valid
import Mathlib.Data.List.Perm.Subperm
import Mathlib.Data.List.Range

/-!
# Which outputs a reference can be to

A definition that comes from a file numbers the outputs of its execs as it likes. The check compares the index of
a reference with the number of outputs only, so an index that passes need not be the number of an output, and
may be the number of several. It always is the number of one where an exec uses the numbers from zero on, each
once (`Exec.Numbered`), and nothing less will do: `references_resolve_iff`.
-/

namespace BuildGraph

namespace Exec

/-- The numbers of the outputs, in the order of the mounts. -/
def outputNumbers (e : Exec) : List Nat := e.mounts.filterMap (·.output)

/-- The outputs have the numbers from zero on, each once. -/
def Numbered (e : Exec) : Prop := e.outputNumbers.Perm (List.range e.outputNumbers.length)

/-- The mounts whose output has a number. -/
def mountsOf (e : Exec) (index : Nat) : List MountPoint := e.mounts.filter (·.output == some index)

theorem length_outputNumbers (e : Exec) : e.outputNumbers.length = (Op.exec e).outputCount := by
  rw [outputNumbers, Op.outputCount]
  induction e.mounts with
  | nil => rfl
  | cons m ms ih => cases h : m.output <;> simp [h, ih]

theorem length_mountsOf (e : Exec) (index : Nat) :
    (e.mountsOf index).length = e.outputNumbers.count index := by
  rw [mountsOf, outputNumbers]
  induction e.mounts with
  | nil => rfl
  | cons m ms ih =>
      cases h : m.output with
      | none => simp [h, ih]
      | some i => by_cases hi : i = index <;> simp [h, hi, ih]

/-- Outputs are numbered from zero on if every number below their count belongs to one mount. -/
theorem numbered_iff (e : Exec) :
    e.Numbered ↔ ∀ index < (Op.exec e).outputCount, (e.mountsOf index).length = 1 := by
  simp only [length_mountsOf, ← length_outputNumbers]
  constructor
  · intro h index hindex
    rw [List.Perm.count_eq h, List.count_eq_one_of_mem List.nodup_range (List.mem_range.2 hindex)]
  · intro h
    have hsubset : List.range e.outputNumbers.length ⊆ e.outputNumbers := by
      intro index hindex
      refine List.count_pos_iff.1 ?_
      rw [h index (List.mem_range.1 hindex)]
      exact Nat.one_pos
    have hsubperm := List.subperm_of_subset List.nodup_range hsubset
    exact (hsubperm.perm_of_length_le (by rw [List.length_range])).symm

end Exec

/-- The number belongs to one output of the operation: that of one mount of an exec, or zero. -/
def Op.HasNumber (op : Op) (index : Nat) : Prop :=
  match op with
  | .exec e => (e.mountsOf index).length = 1
  | .source _ | .copy _ | .merge _ => index = 0

/-- A reference is to one output of a listed operation. -/
def Resolves (ops : List DefinitionOp) (r : InputRef) : Prop :=
  ∃ o ∈ ops, o.digest = r.digest ∧ o.op.HasNumber r.index

namespace Definition

/-- The references of a definition: the inputs of its operations, and the root. -/
def references (d : Definition) : List InputRef := d.ops.flatMap (·.inputs) ++ d.root.toList

theorem WellFormed.provides {d : Definition} (h : d.WellFormed) {r : InputRef} (hr : r ∈ d.references) :
    Provides d.ops r := by
  rcases List.mem_append.1 hr with hr | hr
  · obtain ⟨o, ho, hr⟩ := List.mem_flatMap.1 hr
    exact h.ops.provides ho hr
  · exact h.root r (Option.mem_toList.1 hr)

end Definition

/-- Where no two operations have one digest, a reference determines its operation. -/
theorem Listing.eq_of_digest_eq {ops : List DefinitionOp} (h : Listing ops) {o p : DefinitionOp}
    (ho : o ∈ ops) (hp : p ∈ ops) (heq : o.digest = p.digest) : o = p :=
  List.inj_on_of_nodup_map h.nodup ho hp heq

theorem Op.hasNumber_of_lt {op : Op} (h : ∀ e, op = .exec e → e.Numbered) {index : Nat}
    (hindex : index < op.outputCount) : op.HasNumber index := by
  cases op with
  | exec e => exact (e.numbered_iff).1 (h e rfl) index hindex
  | source s => exact Nat.lt_one_iff.1 hindex
  | copy c => exact Nat.lt_one_iff.1 hindex
  | merge m => exact Nat.lt_one_iff.1 hindex

/-- In an accepted definition a reference is to one output, unless it is to an exec that is not numbered. As long
as there is such an exec, the same operations are accepted with a reference to no output or to several ones. -/
theorem references_resolve_iff {d : Definition} {dag : Dag} (h : Dag.ofDefinition d = .ok dag) :
    (∀ r ∈ d.references,
      (∀ o ∈ d.ops, o.digest = r.digest → ∀ e, o.op = .exec e → e.Numbered) → Resolves d.ops r) ∧
    ((∀ root dag', Dag.ofDefinition { d with root := root } = .ok dag' →
        ∀ r ∈ { d with root := root : Definition }.references, Resolves d.ops r) ↔
      ∀ o ∈ d.ops, ∀ e, o.op = .exec e → e.Numbered) := by
  have hresolves : ∀ d' : Definition, d'.WellFormed → ∀ r ∈ d'.references,
      (∀ o ∈ d'.ops, o.digest = r.digest → ∀ e, o.op = .exec e → e.Numbered) → Resolves d'.ops r := by
    intro d' hd' r hr hnumbered
    obtain ⟨o, ho, hdigest, hindex⟩ := hd'.provides hr
    exact ⟨o, ho, hdigest, Op.hasNumber_of_lt (hnumbered o ho hdigest) hindex⟩
  obtain ⟨hwellFormed, -⟩ := Dag.ofDefinition_eq_ok_iff.1 h
  refine ⟨hresolves d hwellFormed, ?_, ?_⟩
  · intro hall o ho e he
    rw [e.numbered_iff]
    intro index hindex
    -- the operations are accepted with the output in question as their root
    have hroot : Provides d.ops ⟨o.digest, index⟩ := ⟨o, ho, rfl, he ▸ hindex⟩
    have haccept : Definition.WellFormed { d with root := some ⟨o.digest, index⟩ } :=
      ⟨hwellFormed.ops, fun r hr => Option.some.inj hr ▸ hroot⟩
    obtain ⟨p, hp, hdigest, hnumber⟩ := hall _ _ (Dag.ofDefinition_eq_ok_iff.2 ⟨haccept, rfl⟩)
      ⟨o.digest, index⟩ (List.mem_append_right _ List.mem_cons_self)
    rw [hwellFormed.ops.eq_of_digest_eq hp ho hdigest, he] at hnumber
    exact hnumber
  · intro hnumbered root dag' haccept r hr
    obtain ⟨hwellFormed', -⟩ := Dag.ofDefinition_eq_ok_iff.1 haccept
    exact hresolves _ hwellFormed' r hr fun o ho _ => hnumbered o ho

/-- A process without inputs whose only output has some number. -/
def singleExec (number : Nat) : DefinitionOp :=
  .ofBody [] (.exec ⟨⟨["true"], [], "/"⟩, [⟨none, none, "/", some number, false⟩]⟩)

/-- The definition of that process, where output 0 is wanted. -/
def singleDefinition (number : Nat) : Definition :=
  ⟨Definition.currentVersion, [singleExec number], some ⟨(singleExec number).digest, 0⟩, .target⟩

theorem validate_single (number : Nat) :
    (singleExec number).op.validate (singleExec number).inputs.length = .ok () := by
  have hargs : Op.checkArgs ["true"] = .ok () := rfl
  have hpath : Op.checkPath "/" = .ok () := rfl
  have hroot : Op.checkRoot [⟨none, none, "/", some number, false⟩] = .ok () := by simp [Op.checkRoot]
  refine Op.validateExec_eq_ok_iff.2 ⟨hargs, fun _ h => absurd h List.not_mem_nil, hpath, hroot, ?_⟩
  refine Op.checkMounts_eq_ok_iff.2 ⟨fun m hm => ?_, List.nodup_singleton _⟩
  obtain rfl := List.mem_singleton.1 hm
  exact ⟨rfl, hpath, rfl, List.not_mem_nil⟩

theorem ofDefinition_single (number : Nat) :
    Dag.ofDefinition (singleDefinition number) = .ok (Dag.ofOps [singleExec number]) := by
  refine Dag.ofDefinition_eq_ok_iff.2 ⟨⟨?_, ?_⟩, rfl⟩
  · exact .snoc .nil rfl (validate_single number) (fun p hp => absurd hp List.not_mem_nil)
      fun r hr => absurd hr List.not_mem_nil
  · rintro r hr
    obtain rfl := Option.some.inj hr
    exact ⟨singleExec number, List.mem_cons_self, rfl, Nat.one_pos⟩

theorem references_resolve_single :
    Dag.ofDefinition (singleDefinition 0) = .ok (Dag.ofOps [singleExec 0]) ∧
      ∀ r ∈ (singleDefinition 0).references, Resolves (singleDefinition 0).ops r := by
  obtain ⟨-, hiff⟩ := references_resolve_iff (ofDefinition_single 0)
  refine ⟨ofDefinition_single 0, hiff.2 ?_ _ _ (ofDefinition_single 0)⟩
  intro o ho e he
  obtain rfl := List.mem_singleton.1 ho
  obtain rfl := Op.exec.inj he
  exact List.Perm.refl [0]

/-- Output 0 is accepted of a process whose only output has the number 7. -/
theorem stray_reference_accepted :
    ∃ dag, Dag.ofDefinition (singleDefinition 7) = .ok dag ∧
      ∃ r ∈ (singleDefinition 7).references, ¬Resolves (singleDefinition 7).ops r := by
  refine ⟨_, ofDefinition_single 7, ⟨(singleExec 7).digest, 0⟩, List.mem_cons_self, ?_⟩
  rintro ⟨o, ho, -, hnumber⟩
  obtain rfl := List.mem_singleton.1 ho
  cases hnumber

end BuildGraph
