/-!
# Maps from names to texts

Attributes, environments and the owners of paths are finite maps whose order is that of their keys, by code
point. The entries are kept sorted, with every key once, so equal maps are equal values and the map that a list
of entries denotes does not depend on their order, except that the last of several entries of one key counts.
-/

namespace BuildGraph

/-- The keys ascend, each once. -/
def Ascending (entries : List (String × String)) : Prop := entries.Pairwise (·.1 < ·.1)

/-- A finite map from names to texts. -/
structure StringMap where
  entries : List (String × String)
  ascending : Ascending entries
deriving DecidableEq

namespace StringMap

def empty : StringMap := ⟨[], .nil⟩

instance : EmptyCollection StringMap := ⟨empty⟩
instance : Inhabited StringMap := ⟨empty⟩

def isEmpty (m : StringMap) : Bool := m.entries.isEmpty

def size (m : StringMap) : Nat := m.entries.length

def keys (m : StringMap) : List String := m.entries.map (·.1)

def get? (m : StringMap) (key : String) : Option String := m.entries.lookup key

/-- An entry in its place, instead of one with its key. -/
def insertEntry (key value : String) : List (String × String) → List (String × String)
  | [] => [(key, value)]
  | (k, v) :: rest =>
    if key < k then (key, value) :: (k, v) :: rest
    else if key = k then (key, value) :: rest
    else (k, v) :: insertEntry key value rest

theorem mem_insertEntry {key value : String} {entries : List (String × String)} {e : String × String}
    (h : e ∈ insertEntry key value entries) : e = (key, value) ∨ e ∈ entries := by
  induction entries with
  | nil => simp_all [insertEntry]
  | cons x rest ih =>
    obtain ⟨k, v⟩ := x
    simp only [insertEntry] at h
    split at h
    · simpa using h
    · split at h
      · simp only [List.mem_cons] at h ⊢
        exact h.imp_right .inr
      · simp only [List.mem_cons] at h ⊢
        rcases h with h | h
        · exact .inr (.inl h)
        · exact (ih h).imp_right .inr

theorem ascending_insertEntry {key value : String} {entries : List (String × String)} (h : Ascending entries) :
    Ascending (insertEntry key value entries) := by
  induction entries with
  | nil => simp [insertEntry, Ascending]
  | cons x rest ih =>
    obtain ⟨k, v⟩ := x
    obtain ⟨hk, hrest⟩ := List.pairwise_cons.1 h
    simp only [insertEntry]
    split
    · rename_i hlt
      refine List.pairwise_cons.2 ⟨fun e he => ?_, h⟩
      rcases List.mem_cons.1 he with rfl | he
      · exact hlt
      · exact String.lt_trans hlt (hk e he)
    · rename_i hlt
      split
      · rename_i heq
        subst heq
        exact List.pairwise_cons.2 ⟨hk, hrest⟩
      · rename_i hne
        refine List.pairwise_cons.2 ⟨fun e he => ?_, ih hrest⟩
        rcases mem_insertEntry he with rfl | he
        · exact String.not_le.1 fun hle => hne (String.le_antisymm hle (String.not_lt.1 hlt))
        · exact hk e he

def insert (m : StringMap) (key value : String) : StringMap :=
  ⟨insertEntry key value m.entries, ascending_insertEntry m.ascending⟩

/-- The map with more entries, the later ones instead of earlier ones with the same key. -/
def insertAll (m : StringMap) (entries : List (String × String)) : StringMap :=
  entries.foldl (fun m e => m.insert e.1 e.2) m

/-- The map of some entries, where the last one of a key counts. -/
def ofList (entries : List (String × String)) : StringMap := empty.insertAll entries

@[simp] theorem entries_insert (m : StringMap) (key value : String) :
    (m.insert key value).entries = insertEntry key value m.entries := rfl

@[ext] theorem ext {m n : StringMap} (h : m.entries = n.entries) : m = n := by
  cases m; cases n; simp_all

end StringMap

end BuildGraph
