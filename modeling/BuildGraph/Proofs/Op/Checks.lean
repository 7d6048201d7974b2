import BuildGraph.Proofs.Graph.Variables
import BuildGraph.Proofs.Op.Valid

/-!
# What the checks of an operation let through

The checks of paths and of environments are stated by what they let through. A path has to be absolute and free of
the null character. An environment entry is made of a key and a value, and only the key can be wrong with it, so the
environment of a process is let through if the keys that were asked for are (`checkEntries_eq_ok_iff`).
-/

namespace BuildGraph

namespace Op

theorem checkPath_eq_ok_iff {path : String} (h : Path.isAbsolute path.toList = true) :
    checkPath path = .ok () ↔ '\x00' ∉ path.toList := by
  have hne : path ≠ "" := by
    rintro rfl
    cases h
  rw [checkPath, if_neg hne, if_pos h]
  split <;> simp_all

theorem checkArgs_eq_ok_iff {args : List String} : checkArgs args = .ok () ↔ hasProgram args = true := by
  unfold checkArgs hasProgram
  split <;> simp_all

/-- A key that an environment can have: it is not empty and has no `=` in front. -/
def IsKey (key : String) : Prop := key ≠ "" ∧ key.toList.head? ≠ some '='

theorem checkEntry_eq_ok_iff (key value : String) : checkEntry (key ++ "=" ++ value) = .ok () ↔ IsKey key := by
  have htext : (key ++ "=" ++ value).toList = key.toList ++ '=' :: value.toList := by simp
  rw [checkEntry, htext, IsKey]
  cases hkey : key.toList with
  | nil =>
      have hempty : key = "" := String.toList_inj.1 hkey
      simp [hempty, Text.cutFirst?]
  | cons c cs =>
      have hne : key ≠ "" := by
        rintro rfl
        cases hkey
      by_cases hc : c = '='
      · simp [hc, Text.cutFirst?]
      · cases hcut : Text.cutFirst? '=' (cs ++ '=' :: value.toList) with
        | none => simp [Text.cutFirst?_eq_none_iff] at hcut
        | some cut => simp [hne, hc, Text.cutFirst?, hcut]

end Op

/-- All environment entries of a process are let through if the keys are. The entry for the `PATH` is. -/
theorem checkEntries_eq_ok_iff (env : StringMap) :
    (∀ entry ∈ recordedEnv .empty env, Op.checkEntry entry = .ok ()) ↔ ∀ key ∈ env.keys, Op.IsKey key := by
  have hpath : Op.IsKey pathVariable := ⟨by decide, by decide⟩
  have hentries : ∀ m : StringMap,
      (∀ entry ∈ envEntries m, Op.checkEntry entry = .ok ()) ↔ ∀ key ∈ m.keys, Op.IsKey key := by
    intro m
    simp only [envEntries, StringMap.keys, List.forall_mem_map, Op.checkEntry_eq_ok_iff]
  have henv : StringMap.empty.insertAll env.entries = env := StringMap.ofList_entries env
  rw [← envEntries_effectiveEnv, hentries, effectiveEnv, henv]
  split
  · exact Iff.rfl
  · simp only [StringMap.mem_keys_insert, forall_eq_or_imp, hpath, true_and]

end BuildGraph
