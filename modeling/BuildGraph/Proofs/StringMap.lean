import BuildGraph.Proofs.Lists
import BuildGraph.StringMap
import Mathlib.Data.List.Basic
import Mathlib.Data.List.Induction
import Mathlib.Data.List.Sort

/-!
# The entries of a map

An entry whose key is greater than all others goes to the end. So a map is that of its own entries in their order.
Whether an entry is new or stands instead of another one, the keys are those that were there and its own.

What is looked up in a map is what has been put there last (`get?_insert`, `get?_insertAll`, `get?_ofList`). As the
keys ascend, there is nothing more to a map than what is found in it (`eq_of_get?_eq`).
-/

namespace BuildGraph.StringMap

theorem insertEntry_of_forall_lt {key value : String} {entries : List (String × String)}
    (h : ∀ e ∈ entries, e.1 < key) : insertEntry key value entries = entries ++ [(key, value)] := by
  induction entries with
  | nil => rfl
  | cons e rest ih =>
      obtain ⟨he, hrest⟩ := List.forall_mem_cons.1 h
      have hlt : ¬key < e.1 := fun hkey => String.lt_irrefl key (String.lt_trans hkey he)
      have hne : key ≠ e.1 := fun hkey => String.lt_irrefl key (hkey ▸ he)
      rw [insertEntry, if_neg hlt, if_neg hne, ih hrest, List.cons_append]

/-- Further entries in ascending order are put behind those that are there. -/
theorem entries_insertAll {m : StringMap} {entries : List (String × String)} (h : Ascending (m.entries ++ entries)) :
    (m.insertAll entries).entries = m.entries ++ entries := by
  induction entries generalizing m with
  | nil => exact (List.append_nil _).symm
  | cons e rest ih =>
      have hlt : ∀ x ∈ m.entries, x.1 < e.1 := fun x hx =>
        (List.pairwise_append.1 h).2.2 x hx e List.mem_cons_self
      have hinsert : (m.insert e.1 e.2).entries = m.entries ++ [e] := insertEntry_of_forall_lt hlt
      have hsplit : m.entries ++ e :: rest = (m.insert e.1 e.2).entries ++ rest := by
        rw [hinsert, List.append_assoc, List.singleton_append]
      rw [hsplit] at h ⊢
      exact ih h

theorem ofList_entries (m : StringMap) : ofList m.entries = m :=
  ext (entries_insertAll m.ascending)

theorem mem_keys_insert {m : StringMap} {key value k : String} :
    k ∈ (m.insert key value).keys ↔ k = key ∨ k ∈ m.keys := by
  unfold keys
  rw [entries_insert]
  induction m.entries with
  | nil => simp [insertEntry]
  | cons e rest ih =>
      rw [insertEntry]
      split
      · simp
      · split
        · rename_i hkey
          simp [hkey]
        · simp only [List.map_cons, List.mem_cons, ih]
          exact or_left_comm

theorem mem_keys_iff {m : StringMap} {key : String} : key ∈ m.keys ↔ m.get? key ≠ none := by
  rw [keys, get?, ne_eq, List.lookup_eq_none_iff, List.mem_map]
  constructor
  · rintro ⟨e, he, rfl⟩ hnone
    exact bne_iff_ne.1 (hnone e he) rfl
  · intro h
    by_contra hnot
    exact h fun e he => bne_iff_ne.2 fun hkey => hnot ⟨e, he, hkey.symm⟩

theorem lookup_cons_eq_ite (e : String × String) (rest : List (String × String)) (k : String) :
    (e :: rest).lookup k = if k = e.1 then some e.2 else rest.lookup k := by
  obtain ⟨key, value⟩ := e
  rw [List.lookup_cons]
  by_cases hk : k = key
  · simp [hk]
  · simp [hk, beq_false_of_ne hk]

theorem lookup_insertEntry (key value k : String) (entries : List (String × String)) :
    (insertEntry key value entries).lookup k = if k = key then some value else entries.lookup k := by
  induction entries with
  | nil => exact lookup_cons_eq_ite (key, value) [] k
  | cons e rest ih =>
      rw [insertEntry]
      split
      · exact lookup_cons_eq_ite (key, value) _ k
      · split
        · rename_i hkey
          rw [lookup_cons_eq_ite, lookup_cons_eq_ite, ← hkey]
          by_cases hk : k = key <;> simp [hk]
        · rename_i hkey
          rw [lookup_cons_eq_ite, lookup_cons_eq_ite, ih]
          by_cases hk : k = e.1
          · simp [hk, Ne.symm hkey]
          · simp [hk]

theorem get?_insert (m : StringMap) (key value k : String) :
    (m.insert key value).get? k = if k = key then some value else m.get? k :=
  lookup_insertEntry key value k m.entries

/-- The entries of a second map count before those of the first one. -/
theorem get?_insertAll (m n : StringMap) (k : String) :
    (m.insertAll n.entries).get? k = (n.get? k).or (m.get? k) := by
  obtain ⟨entries, hascending⟩ := n
  change (m.insertAll entries).get? k = (entries.lookup k).or (m.get? k)
  induction entries generalizing m with
  | nil => rfl
  | cons e rest ih =>
      obtain ⟨hleast, hrest⟩ := List.pairwise_cons.1 hascending
      have hstep : m.insertAll (e :: rest) = (m.insert e.1 e.2).insertAll rest := rfl
      rw [hstep, ih (m.insert e.1 e.2) hrest, get?_insert, lookup_cons_eq_ite]
      by_cases hk : k = e.1
      · -- the key does not come again
        have hnew : rest.lookup k = none := by
          refine List.lookup_eq_none_iff.2 fun x hx => bne_iff_ne.2 ?_
          rintro rfl
          exact String.lt_irrefl x.1 (hk ▸ hleast x hx)
        rw [hnew, if_pos hk, if_pos hk]
        rfl
      · rw [if_neg hk, if_neg hk]

/-- Of the entries that a map is made of, the last one with a key counts. -/
theorem get?_ofList (entries : List (String × String)) (k : String) :
    (ofList entries).get? k = (entries.reverse.find? (·.1 == k)).map (·.2) := by
  induction entries using List.reverseRecOn with
  | nil => rfl
  | append_singleton entries e ih =>
      have hlast : ofList (entries ++ [e]) = (ofList entries).insert e.1 e.2 := by
        simp [ofList, insertAll]
      rw [hlast, get?_insert, ih, List.reverse_concat, List.find?_cons]
      by_cases hk : e.1 = k
      · simp [hk]
      · simp [beq_false_of_ne hk, Ne.symm hk]

theorem mem_entries_iff {m : StringMap} {e : String × String} : e ∈ m.entries ↔ m.get? e.1 = some e.2 := by
  have hnodup : (m.entries.map (·.1)).Nodup := List.pairwise_map.2 (m.ascending.imp String.ne_of_lt)
  exact (lookup_eq_some_iff_mem hnodup).symm

theorem eq_of_get?_eq {m n : StringMap} (h : ∀ key, m.get? key = n.get? key) : m = n := by
  have hirrefl : Std.Irrefl fun e e' : String × String => e.1 < e'.1 := ⟨fun e => String.lt_irrefl e.1⟩
  have hantisymm : Std.Antisymm fun e e' : String × String => e.1 < e'.1 :=
    ⟨fun _ _ hlt hgt => absurd hgt (String.lt_asymm hlt)⟩
  refine ext (m.ascending.eq_of_mem_iff n.ascending fun e => ?_)
  rw [mem_entries_iff, mem_entries_iff, h]

end BuildGraph.StringMap
