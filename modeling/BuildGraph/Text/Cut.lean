/-!
# Cutting a text at a character

`cutFirst? c` and `cutLast? c` split a text at the first and at the last occurrence of `c`, which belongs to
neither part. Both are `none` exactly when `c` does not occur. A text that is put together around `c` is cut there
again, if `c` is not in the part in front or in the part behind.
-/

namespace BuildGraph.Text

def cutFirst? (c : Char) : List Char → Option (List Char × List Char)
  | [] => none
  | x :: xs => if x = c then some ([], xs) else (cutFirst? c xs).map fun (before, after) => (x :: before, after)

def cutLast? (c : Char) : List Char → Option (List Char × List Char)
  | [] => none
  | x :: xs =>
    match cutLast? c xs with
    | some (before, after) => some (x :: before, after)
    | none => if x = c then some ([], xs) else none

theorem cutFirst?_eq_some {c : Char} {cs before after : List Char}
    (h : cutFirst? c cs = some (before, after)) : cs = before ++ c :: after ∧ c ∉ before := by
  induction cs generalizing before with
  | nil => simp [cutFirst?] at h
  | cons x xs ih =>
    by_cases hx : x = c
    · simp [cutFirst?, hx] at h
      obtain ⟨rfl, rfl⟩ := h
      simp [hx]
    · simp only [cutFirst?, hx, if_false, Option.map_eq_some_iff] at h
      obtain ⟨⟨b, a⟩, hb, he⟩ := h
      simp only [Prod.mk.injEq] at he
      obtain ⟨rfl, rfl⟩ := he
      obtain ⟨h₁, h₂⟩ := ih hb
      exact ⟨by simp [h₁], by simp [h₂, Ne.symm hx]⟩

theorem cutFirst?_eq_none_iff {c : Char} {cs : List Char} : cutFirst? c cs = none ↔ c ∉ cs := by
  induction cs with
  | nil => simp [cutFirst?]
  | cons x xs ih => by_cases hx : x = c <;> simp [cutFirst?, hx, ih, eq_comm (a := c)]

theorem cutFirst?_append {c : Char} {before : List Char} (h : c ∉ before) (after : List Char) :
    cutFirst? c (before ++ c :: after) = some (before, after) := by
  induction before with
  | nil => simp [cutFirst?]
  | cons x xs ih =>
    rw [List.mem_cons, not_or] at h
    rw [List.cons_append, cutFirst?, if_neg (Ne.symm h.1), ih h.2]
    rfl

theorem cutLast?_eq_none_iff {c : Char} {cs : List Char} : cutLast? c cs = none ↔ c ∉ cs := by
  induction cs with
  | nil => simp [cutLast?]
  | cons x xs ih =>
    cases h : cutLast? c xs with
    | none =>
      have hxs := ih.1 h
      by_cases hx : x = c <;> simp [cutLast?, h, hx, hxs]
      exact Ne.symm hx
    | some p =>
      have hxs : c ∈ xs := Decidable.byContradiction fun hc => by simp [ih.2 hc] at h
      simp [cutLast?, h, hxs]

theorem cutLast?_eq_some {c : Char} {cs before after : List Char}
    (h : cutLast? c cs = some (before, after)) : cs = before ++ c :: after ∧ c ∉ after := by
  induction cs generalizing before with
  | nil => simp [cutLast?] at h
  | cons x xs ih =>
    cases hc : cutLast? c xs with
    | some p =>
      simp only [cutLast?, hc, Option.some.injEq, Prod.mk.injEq] at h
      obtain ⟨rfl, rfl⟩ := h
      obtain ⟨h₁, h₂⟩ := ih hc
      exact ⟨by simp [h₁], h₂⟩
    | none =>
      by_cases hx : x = c
      · simp [cutLast?, hc, hx] at h
        obtain ⟨rfl, rfl⟩ := h
        exact ⟨by simp [hx], cutLast?_eq_none_iff.1 hc⟩
      · simp [cutLast?, hc, hx] at h

theorem cutLast?_append {c : Char} {after : List Char} (h : c ∉ after) (before : List Char) :
    cutLast? c (before ++ c :: after) = some (before, after) := by
  induction before with
  | nil => simp [cutLast?, cutLast?_eq_none_iff.2 h]
  | cons x xs ih => rw [List.cons_append, cutLast?, ih]

end BuildGraph.Text
