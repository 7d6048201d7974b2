import BuildGraph.Proofs.Path.Climb

/-!
# One path after another

To follow one path and then another is to follow one normal form, and there is no other that leads to the same places
from everywhere. `join` finds it, with one exception. The empty path stays where it is, but with a slash behind it,
it is the root (`join_empty`). So a relative path that is joined to the empty base is followed from the root, and this
comes to the same only from where the path would climb to the root anyway (`walk_join_iff`).

What `join` makes is never the empty path. So paths that are put behind one another can be joined from the front or
from the back, as long as those in the middle are not empty (`join_assoc`).
-/

namespace BuildGraph.Path

theorem walk_empty (stack : List Segment) : walk stack "" = stack := rfl

/-- Normal forms that lead to the same places are the same. -/
theorem eq_of_walk_eq {p q : String} (hp : normalize p = p) (hq : normalize q = q)
    (h : ∀ stack, walk stack p = walk stack q) : p = q := by
  rw [← hp, ← hq]
  exact normalize_eq_of_walk_eq fun stack _ => h stack

theorem normal_walk_iff {p q : String} (hq : normalize q = q) :
    (normalize p = p ∧ ∀ stack, walk stack p = walk stack q) ↔ p = q := by
  constructor
  · rintro ⟨hp, hwalk⟩
    exact eq_of_walk_eq hp hq hwalk
  · rintro rfl
    exact ⟨hq, fun _ => rfl⟩

/-- A relative path leads to where it leads from the root just if it leaves nothing of the directory. -/
theorem walk_nil_eq_iff {path : String} (hpath : isAbsolute path.toList = false) (stack : List Segment) :
    walk [] path = walk stack path ↔ stack.length ≤ climb path := by
  obtain ⟨names, -, hwalk⟩ := exists_walk_eq hpath
  rw [hwalk, hwalk, List.drop_nil, List.append_cancel_left_eq, eq_comm, List.drop_eq_nil_iff]

theorem walk_join_empty (path : String) (stack : List Segment) : walk stack (join "" path) = walk [] path := by
  have hroot : walk stack "/" = [] := walk_of_absolute rfl stack
  rw [join_empty, walk_join (by decide), hroot]

/-- From one directory the joined path leads to the right place if there is a base to put the path behind, if the path
needs none, or if it climbs to the root. -/
theorem walk_join_at_iff (base path : String) (stack : List Segment) :
    walk stack (join base path) = walk (walk stack base) path ↔
      base ≠ "" ∨ isAbsolute path.toList = true ∨ stack.length ≤ climb path := by
  by_cases hbase : base = ""
  · subst hbase
    cases hpath : isAbsolute path.toList with
    | true => exact iff_of_true (walk_join_of_absolute "" hpath stack) (.inr (.inl rfl))
    | false =>
        rw [walk_join_empty, walk_empty, walk_nil_eq_iff hpath]
        simp
  · exact iff_of_true (walk_join hbase path stack) (.inl hbase)

/-- From everywhere it leads there only for the first two reasons: there are directories below any climb. -/
theorem forall_walk_join_iff (base path : String) :
    (∀ stack, walk stack (join base path) = walk (walk stack base) path) ↔
      base ≠ "" ∨ isAbsolute path.toList = true := by
  constructor
  · intro h
    have hdeep := (walk_join_at_iff base path (List.replicate (climb path + 1) ['a'])).1 (h _)
    rw [List.length_replicate, ← or_assoc] at hdeep
    exact hdeep.resolve_right (Nat.not_succ_le_self _)
  · intro h stack
    exact (walk_join_at_iff base path stack).2 (h.imp_right .inl)

/-- Paths behind one another can be joined in any order. -/
theorem join_assoc (a : String) {b : String} (hb : b ≠ "") (c : String) : join (join a b) c = join a (join b c) := by
  have hnonempty : ∀ a, a ≠ "" → join (join a b) c = join a (join b c) := by
    intro a ha
    refine eq_of_walk_eq (join_fixed _ _) (join_fixed _ _) fun stack => ?_
    rw [walk_join (join_ne_empty a b), walk_join ha, walk_join ha, walk_join hb]
  by_cases ha : a = ""
  · -- what the empty path does in front of others the root does as well
    rw [ha, join_empty, join_empty]
    exact hnonempty "/" (by decide)
  · exact hnonempty a ha

/-- In the middle the empty path cuts off what is in front of it, if it is joined to what is behind it first. -/
example : join (join "a" "") "b" = "a/b" ∧ join "a" (join "" "b") = "/b" := by decide +kernel

/-- To follow a joined path from a directory is to follow the base and then the path just if the base is not empty, or
the path is absolute, or the path climbs to the root from there. So from every directory it is that if the base is not
empty or the path is absolute. What is joined is a normal form, and among the normal forms only one is followed like the
base and then the path: this one, but behind the empty base that of the path. -/
theorem walk_join_iff (base path : String) :
    (∀ stack, walk stack (join base path) = walk (walk stack base) path ↔
        base ≠ "" ∨ isAbsolute path.toList = true ∨ stack.length ≤ climb path) ∧
      ((∀ stack, walk stack (join base path) = walk (walk stack base) path) ↔
        base ≠ "" ∨ isAbsolute path.toList = true) ∧
      normalize (join base path) = join base path ∧
      ∀ joined, (normalize joined = joined ∧ ∀ stack, walk stack joined = walk (walk stack base) path) ↔
        joined = if base = "" then normalize path else join base path := by
  refine ⟨walk_join_at_iff base path, forall_walk_join_iff base path, join_fixed base path, fun joined => ?_⟩
  by_cases hbase : base = ""
  · rw [if_pos hbase, hbase]
    simp only [walk_empty, ← walk_normalize _ path]
    exact normal_walk_iff (normalize_fixed path)
  · rw [if_neg hbase]
    simp only [← walk_join hbase path]
    exact normal_walk_iff (join_fixed base path)

/-- The empty path stays in `x`, from where `a` leads to `x/a`. The path that is joined from the two leads to `/a`. -/
theorem walk_join_empty_base :
    join "" "a" = "/a" ∧ walk [['x']] (join "" "a") = [['a']] ∧ walk (walk [['x']] "") "a" = [['a'], ['x']] ∧
      ¬∀ base path, (∀ stack, walk stack (join base path) = walk (walk stack base) path) ∧
        normalize (join base path) = join base path :=
  ⟨by decide +kernel, by decide +kernel, by decide +kernel,
    fun h => absurd ((h "" "a").1 [['x']]) (by decide +kernel)⟩

end BuildGraph.Path
