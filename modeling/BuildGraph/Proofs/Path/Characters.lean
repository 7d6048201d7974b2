import BuildGraph.Proofs.Path.Normal

/-!
# The characters of a normal form

Apart from slashes a normal form has no characters that the path does not have; it may lack some of them, where a
segment is taken back. So what can be said against a character of a path, such as the null character, has to be said
of the normal form once more.
-/

namespace BuildGraph.Path

theorem mem_intercalate_slash {c : Char} (hc : c ≠ '/') {ss : List Segment} :
    c ∈ ['/'].intercalate ss ↔ ∃ s ∈ ss, c ∈ s := by
  induction ss with
  | nil => simp
  | cons s ss ih =>
      by_cases hss : ss = []
      · simp [hss]
      · rw [List.intercalate_cons_of_ne_nil hss]
        simp [ih, hc]

theorem mem_rooted {c : Char} (hc : c ≠ '/') {ss : List Segment} :
    c ∈ (rooted ss).toList ↔ ∃ s ∈ ss, c ∈ s := by
  rw [toList_rooted, List.mem_cons, or_iff_right hc, mem_intercalate_slash hc]

theorem mem_of_mem_step {stack : List Segment} {s t : Segment} (h : t ∈ step true stack s) : t = s ∨ t ∈ stack := by
  unfold step at h
  split at h
  · exact .inr h
  · split at h
    · cases stack with
      | nil => exact .inr h
      | cons top below =>
          dsimp only at h
          split at h
          · exact .inr h
          · exact .inr (List.mem_cons_of_mem _ h)
    · exact List.mem_cons.1 h

/-- Nothing but segments of the path is kept. -/
theorem mem_of_mem_foldl_step {ss stack : List Segment} {t : Segment} (h : t ∈ ss.foldl (step true) stack) :
    t ∈ ss ∨ t ∈ stack := by
  induction ss generalizing stack with
  | nil => exact .inr h
  | cons s ss ih =>
      rcases ih h with ht | ht
      · exact .inl (List.mem_cons_of_mem _ ht)
      · rcases mem_of_mem_step ht with rfl | ht
        · exact .inl List.mem_cons_self
        · exact .inr ht

/-- Apart from slashes the normal form of an absolute path has no other characters. -/
theorem mem_normalize {path : String} (h : isAbsolute path.toList = true) {c : Char} (hc : c ≠ '/')
    (hmem : c ∈ (normalize path).toList) : c ∈ path.toList := by
  rw [normalize_eq_rooted h, mem_rooted hc] at hmem
  obtain ⟨s, hs, hcs⟩ := hmem
  rw [parts, List.mem_reverse, reduce, h] at hs
  have hsegment : s ∈ segments path.toList := (mem_of_mem_foldl_step hs).resolve_right List.not_mem_nil
  have hjoined : ['/'].intercalate (segments path.toList) = path.toList := List.intercalate_splitOn '/'
  rw [← hjoined, mem_intercalate_slash hc]
  exact ⟨s, hsegment, hcs⟩

/-- A character of a path that lies in a directory is one of the directory or one of what follows. -/
theorem mem_normalize_of_stripBase? {path base rest : String} (hpath : isAbsolute path.toList = true)
    (hbase : isAbsolute base.toList = true) (h : stripBase? path base = some rest) {c : Char} (hc : c ≠ '/') :
    c ∈ (normalize path).toList ↔ c ∈ (normalize base).toList ∨ c ∈ rest.toList := by
  obtain ⟨below, hparts, rfl⟩ := (stripBase?_eq_some_iff hpath hbase).1 h
  rw [normalize_eq_rooted hpath, normalize_eq_rooted hbase, hparts]
  simp only [mem_rooted hc, List.mem_append, or_and_right, exists_or]

end BuildGraph.Path
