import BuildGraph.Proofs.Path.Within

/-!
# Following a joined path

To follow a joined path is to follow the base and then the path, one after another (`walk_join`). Nothing is said of
the base but that it is not the empty text: where nothing stands in front of it, the slash between the two is the root
(`join_empty`). What has been joined is never empty (`join_ne_empty`). So a directory that is made from another one by
joining paths to it, again and again, is the place that these paths lead to (`rooted_walk`). In particular a path that
is joined to an absolute directory is written out as the names that one comes through (`join_eq_reached`).
-/

namespace BuildGraph.Path

theorem ne_empty_of_isAbsolute {path : String} (h : isAbsolute path.toList = true) : path ≠ "" := by
  rintro rfl
  cases h

theorem walk_of_relative {path : String} (h : isAbsolute path.toList = false) (stack : List Segment) :
    walk stack path = (segments path.toList).foldl move stack := by
  rw [walk, h]
  rfl

theorem walk_of_absolute {path : String} (h : isAbsolute path.toList = true) (stack : List Segment) :
    walk stack path = walk [] path := by
  rw [walk, walk, h]
  rfl

/-- A path behind another one is followed from where that one leads. -/
theorem walk_append_slash {base : String} (hbase : base ≠ "") {path : String} (hpath : isAbsolute path.toList = false)
    (stack : List Segment) : walk stack (base ++ "/" ++ path) = walk (walk stack base) path := by
  have htext : (base ++ "/" ++ path).toList = base.toList ++ '/' :: path.toList := by simp
  have hchars : base.toList ≠ [] := fun h => hbase (String.toList_eq_nil_iff.1 h)
  rw [walk, htext, isAbsolute_append_of_ne_nil hchars, segments_append_slash, List.foldl_append, ← walk,
    walk_of_relative hpath]

theorem walk_join_of_absolute (base : String) {path : String} (hpath : isAbsolute path.toList = true)
    (stack : List Segment) : walk stack (join base path) = walk (walk stack base) path := by
  rw [join, if_pos hpath, walk_normalize, walk_of_absolute hpath stack, walk_of_absolute hpath (walk stack base)]

theorem walk_join {base : String} (hbase : base ≠ "") (path : String) (stack : List Segment) :
    walk stack (join base path) = walk (walk stack base) path := by
  cases hpath : isAbsolute path.toList with
  | true => exact walk_join_of_absolute base hpath stack
  | false => rw [join, if_neg (Bool.eq_false_iff.1 hpath), walk_normalize, walk_append_slash hbase hpath]

/-- A normal form is its own, also one of a relative path. -/
theorem normalize_fixed (path : String) : normalize (normalize path) = normalize path :=
  normalize_eq_of_walk_eq fun stack _ => walk_normalize stack path

theorem join_fixed (base path : String) : normalize (join base path) = join base path := by
  unfold join
  split <;> exact normalize_fixed _

theorem normalize_ne_empty (path : String) : normalize path ≠ "" := by
  intro h
  have hfixed := normalize_fixed path
  rw [h] at hfixed
  exact absurd hfixed (by decide)

theorem join_ne_empty (base path : String) : join base path ≠ "" :=
  join_fixed base path ▸ normalize_ne_empty (join base path)

/-- The path of the place that one comes to from a directory: a slash, and the names down from the root with slashes
between them. -/
def reached (dir path : String) : String :=
  "/" ++ String.ofList (['/'].intercalate (walk (walk [] dir) path).reverse)

/-- Behind the empty path the slash is the root. -/
theorem join_empty (path : String) : join "" path = join "/" path := by
  cases hpath : isAbsolute path.toList with
  | true => rw [join, join, if_pos hpath, if_pos hpath]
  | false => rw [join_root, join, if_neg (Bool.eq_false_iff.1 hpath), String.empty_append]

/-- The place that an absolute path leads to has the segments of the path. -/
theorem walk_nil_of_absolute {path : String} (h : isAbsolute path.toList = true) :
    (walk [] path).reverse = parts path := by
  have hsteps : (segments path.toList).foldl (step true) [] = (segments path.toList).foldl move [] :=
    foldl_step_eq_foldl_move (fun _ => slash_notMem_segments) fun _ hs => absurd hs List.not_mem_nil
  rw [walk, ite_self, parts, reduce, h, hsteps]

/-- An absolute path in normal form is that of the place that it leads to. -/
theorem rooted_walk {path : String} (h : isAbsolute path.toList = true) :
    rooted (walk [] path).reverse = normalize path := by
  rw [walk_nil_of_absolute h, normalize_eq_rooted h]

/-- A path joined to an absolute directory is that of the place that it leads to from there. -/
theorem join_eq_reached {dir : String} (h : isAbsolute dir.toList = true) (path : String) :
    join dir path = reached dir path := by
  obtain ⟨habsolute, hnormal⟩ := normalize_join h path
  rw [reached, ← walk_join (ne_empty_of_isAbsolute h), ← rooted_eq_append, rooted_walk habsolute, hnormal]

end BuildGraph.Path
