import BuildGraph.Graph.Run
import BuildGraph.Proofs.StringMap
import Mathlib.Data.List.Dedup

/-!
# The variables of a process

What a variable is for a process is said for each name by itself: the run decides, or else the base, and a `PATH` is
never missing (`effectiveValue`). With the names in ascending order this gives entries `KEY=VALUE`, one for each
variable (`recordedEnv`). They are what a run records, whatever maps are made on the way (`envEntries_effectiveEnv`).
-/

namespace BuildGraph

/-- What a variable is for a process: what the run says, or else the base; and there is always a `PATH`. -/
def effectiveValue (base changes : StringMap) (key : String) : Option String :=
  ((changes.get? key).or (base.get? key)).or (if key = pathVariable then some defaultPath else none)

theorem get?_effectiveEnv (base changes : StringMap) :
    (effectiveEnv base changes).get? = effectiveValue base changes := by
  funext key
  rw [effectiveValue, ← StringMap.get?_insertAll]
  cases hpath : (base.insertAll changes.entries).get? pathVariable with
  | some path =>
      simp only [effectiveEnv, hpath]
      by_cases hkey : key = pathVariable
      · rw [hkey, hpath]
        rfl
      · rw [if_neg hkey, Option.or_none]
  | none =>
      simp only [effectiveEnv, hpath]
      rw [StringMap.get?_insert]
      by_cases hkey : key = pathVariable
      · rw [if_pos hkey, if_pos hkey, hkey, hpath]
        rfl
      · rw [if_neg hkey, if_neg hkey, Option.or_none]

/-- The names of the variables of a process, in their order, each once. -/
def variableNames (base changes : StringMap) : List String :=
  (pathVariable :: (base.keys ++ changes.keys)).dedup.insertionSort (· ≤ ·)

/-- The entries `KEY=VALUE` of the variables of a process. -/
def recordedEnv (base changes : StringMap) : List String :=
  (variableNames base changes).filterMap fun key =>
    (effectiveValue base changes key).map fun value => key ++ "=" ++ value

theorem mem_variableNames_iff {base changes : StringMap} {key : String} :
    key ∈ variableNames base changes ↔ effectiveValue base changes key ≠ none := by
  rw [variableNames, List.mem_insertionSort, List.mem_dedup, List.mem_cons, List.mem_append, StringMap.mem_keys_iff,
    StringMap.mem_keys_iff, effectiveValue]
  by_cases hkey : key = pathVariable
  · simp [hkey]
  · simp [hkey, or_comm, imp_iff_not_or]

/-- The names ascend. -/
theorem pairwise_variableNames (base changes : StringMap) : (variableNames base changes).Pairwise (· < ·) := by
  have htotal : Std.Total fun x y : String => x ≤ y := ⟨String.le_total⟩
  have htrans : IsTrans String fun x y => x ≤ y := ⟨fun _ _ _ => String.le_trans⟩
  have hsorted : (variableNames base changes).Pairwise (· ≤ ·) := List.pairwise_insertionSort _ _
  have hnodup : (variableNames base changes).Nodup :=
    (List.perm_insertionSort _ _).nodup_iff.2 (List.nodup_dedup _)
  refine (hsorted.and hnodup).imp ?_
  rintro x y ⟨hle, hne⟩
  exact String.not_le.1 fun hge => hne (String.le_antisymm hle hge)

theorem keys_effectiveEnv (base changes : StringMap) :
    (effectiveEnv base changes).keys = variableNames base changes := by
  have hirrefl : Std.Irrefl fun x y : String => x < y := ⟨String.lt_irrefl⟩
  have hantisymm : Std.Antisymm fun x y : String => x < y := ⟨fun _ _ hlt hgt => absurd hgt (String.lt_asymm hlt)⟩
  have hkeys : (effectiveEnv base changes).keys.Pairwise (· < ·) :=
    List.pairwise_map.2 (effectiveEnv base changes).ascending
  refine hkeys.eq_of_mem_iff (pairwise_variableNames base changes) fun key => ?_
  rw [StringMap.mem_keys_iff, get?_effectiveEnv, mem_variableNames_iff]

/-- The entries of a map have its keys, and behind each what is found under it. -/
theorem StringMap.envEntries_eq_filterMap (m : StringMap) :
    envEntries m = m.keys.filterMap fun key => (m.get? key).map fun value => key ++ "=" ++ value := by
  rw [envEntries, keys, List.filterMap_map, ← List.filterMap_eq_map]
  refine List.filterMap_congr fun e he => ?_
  simp only [Function.comp_apply, mem_entries_iff.1 he, Option.map_some]

/-- What a run records of the environment of its process. -/
theorem envEntries_effectiveEnv (base changes : StringMap) :
    envEntries (effectiveEnv base changes) = recordedEnv base changes := by
  rw [StringMap.envEntries_eq_filterMap, keys_effectiveEnv, get?_effectiveEnv, recordedEnv]

/-- The value of the run counts, and a `PATH` is given. -/
example : recordedEnv (.ofList [("CI", "1"), ("A", "x")]) (.ofList [("CI", "2")]) =
    ["A=x", "CI=2", "PATH=/usr/local/sbin:/usr/local/bin:/usr/sbin:/usr/bin:/sbin:/bin"] := by decide

end BuildGraph
