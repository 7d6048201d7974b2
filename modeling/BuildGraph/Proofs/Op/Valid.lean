import BuildGraph.Op.Validate
import BuildGraph.Proofs.Check
import Mathlib.Data.List.Nodup

/-!
# What a valid operation refers to

The checks of an operation are done one after another, so a valid one has passed each of them. What is said here
of mounts, `checkMounts_eq_ok_iff`, is all that is checked of them. Behind a definition the indices matter: a
valid operation refers to inputs that it has.
-/

namespace BuildGraph.Op

theorem checkIndex_eq_ok_iff {count index : Nat} : checkIndex count index = .ok () ↔ index < count := by
  unfold checkIndex
  split <;> simp_all

theorem checkInput_eq_ok_iff {count : Nat} {input : Option Nat} :
    checkInput count input = .ok () ↔ ∀ index, input = some index → index < count := by
  cases input with
  | none => simp [checkInput]
  | some index => simp [checkInput, checkIndex_eq_ok_iff]

/-- Mounts pass if each is fit by itself and their targets differ. -/
theorem checkMounts_eq_ok_iff {count : Nat} {seen : List String} {mounts : List MountPoint} :
    checkMounts count seen mounts = .ok () ↔
      (∀ m ∈ mounts, checkInput count m.input = .ok () ∧ checkPath m.dest = .ok () ∧
        checkSelector m.selector = .ok () ∧ Path.normalize m.dest ∉ seen) ∧
      (mounts.map fun m => Path.normalize m.dest).Nodup := by
  induction mounts generalizing seen with
  | nil => simp [checkMounts]
  | cons m ms ih =>
      rw [List.forall_mem_cons, List.map_cons, List.nodup_cons]
      simp only [checkMounts, check_bind_eq_ok_iff, refuse_eq_ok_iff, ih, List.mem_cons, not_or, List.mem_map,
        not_exists, not_and]
      constructor
      · rintro ⟨hinput, hpath, hselector, hnew, hms, hnodup⟩
        refine ⟨⟨⟨hinput, hpath, hselector, hnew⟩, ?_⟩, ?_, hnodup⟩
        · intro n hn
          obtain ⟨hinput, hpath, hselector, -, hnew⟩ := hms n hn
          exact ⟨hinput, hpath, hselector, hnew⟩
        · intro n hn
          exact (hms n hn).2.2.2.1
      · rintro ⟨⟨⟨hinput, hpath, hselector, hnew⟩, hms⟩, hm, hnodup⟩
        refine ⟨hinput, hpath, hselector, hnew, ?_, hnodup⟩
        intro n hn
        obtain ⟨hinput, hpath, hselector, hnew⟩ := hms n hn
        exact ⟨hinput, hpath, hselector, hm n hn, hnew⟩

theorem validateExec_eq_ok_iff {count : Nat} {e : Exec} :
    validateExec count e = .ok () ↔
      checkArgs e.process.args = .ok () ∧ (∀ entry ∈ e.process.env, checkEntry entry = .ok ()) ∧
        checkPath e.process.cwd = .ok () ∧ checkRoot e.mounts = .ok () ∧
        checkMounts count [] e.mounts = .ok () := by
  simp only [validateExec, check_bind_eq_ok_iff, forM_eq_ok_iff]

/-- The filesystems that an operation refers to, none for the empty one. -/
def references : Op → List (Option Nat)
  | source _ => []
  | exec e => e.mounts.map (·.input)
  | copy c => [c.destInput, c.srcInput]
  | merge m => m.inputs.map some

/-- A valid operation refers to inputs that it has. -/
theorem references_lt {count : Nat} {op : Op} (h : op.validate count = .ok ()) {index : Nat}
    (hindex : some index ∈ op.references) : index < count := by
  cases op with
  | source s => cases hindex
  | exec e =>
      obtain ⟨m, hm, hinput⟩ := List.mem_map.1 hindex
      have hmounts := checkMounts_eq_ok_iff.1 (validateExec_eq_ok_iff.1 h).2.2.2.2
      exact checkInput_eq_ok_iff.1 (hmounts.1 m hm).1 index hinput
  | copy c =>
      obtain ⟨hdest, h⟩ := check_bind_eq_ok_iff.1 h
      obtain ⟨hsrc, -⟩ := check_bind_eq_ok_iff.1 h
      rcases List.mem_pair.1 hindex with hindex | hindex
      · exact checkInput_eq_ok_iff.1 hdest index hindex.symm
      · exact checkInput_eq_ok_iff.1 hsrc index hindex.symm
  | merge m =>
      obtain ⟨i, hi, hindex⟩ := List.mem_map.1 hindex
      obtain rfl : i = index := Option.some.inj hindex
      obtain ⟨-, hinputs⟩ := refuse_eq_ok_iff.1 h
      exact checkIndex_eq_ok_iff.1 (forM_eq_ok_iff.1 hinputs i hi)

end BuildGraph.Op
