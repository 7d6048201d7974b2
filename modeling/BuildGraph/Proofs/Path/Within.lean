import BuildGraph.Proofs.Path.Walk
import Mathlib.Data.List.Infix

/-!
# Paths in a directory

An absolute path lies in a directory if it begins with the segments of the directory, when both are in normal form
(`Within`). The directories that a path lies in form a chain: of two of them one lies in the other (`Within.total`). So
among them the deepest is the one with the longest normal form (`Within.of_size_le`), and no two of them are equally
deep without being the same (`Within.parts_eq`).

From a directory one gets to the paths in it by relative paths that do not leave it on the way (`StaysIn`). What
`stripBase?` leaves of a path, without its slash, is such a way (`join_rest`).
-/

namespace BuildGraph.Path

/-- A path that is the directory or lies below it. -/
def Within (path dir : String) : Prop := parts dir <+: parts path

instance (path dir : String) : Decidable (Within path dir) := inferInstanceAs (Decidable (parts dir <+: parts path))

/-- How far below the root a directory lies. -/
def depth (dir : String) : Nat := (parts dir).length

/-- One does not come out of the directory on any part of the way. -/
def StaysIn (dir path : String) : Prop :=
  ∀ way, way <+: segments path.toList → reduce dir.toList <:+ way.foldl move (reduce dir.toList)

instance (dir path : String) : Decidable (StaysIn dir path) :=
  decidable_of_iff
    (∀ way ∈ (segments path.toList).inits, reduce dir.toList <:+ way.foldl move (reduce dir.toList))
    (by simp only [StaysIn, List.mem_inits])

theorem Within.total {path dir dir' : String} (h : Within path dir) (h' : Within path dir') :
    parts dir <+: parts dir' ∨ parts dir' <+: parts dir :=
  List.prefix_or_prefix_of_prefix h h'

/-- Of the directories that a path lies in there is one for each depth. -/
theorem Within.parts_eq {path dir dir' : String} (h : Within path dir) (h' : Within path dir')
    (hdepth : depth dir = depth dir') : parts dir = parts dir' :=
  (List.prefix_of_prefix_length_le h h' (Nat.le_of_eq hdepth)).eq_of_length hdepth

theorem parts_eq_iff {path path' : String} (h : isAbsolute path.toList = true) (h' : isAbsolute path'.toList = true) :
    normalize path = normalize path' ↔ parts path = parts path' := by
  rw [normalize_eq_rooted h, normalize_eq_rooted h', rooted_inj (plain_parts h) (plain_parts h')]

theorem rooted_eq_append (ss : List Segment) : rooted ss = "/" ++ String.ofList (['/'].intercalate ss) := by
  apply String.toList_inj.1
  simp

/-- The text of a path begins with that of a directory further up, and goes on. -/
theorem exists_rooted_append (ss : List Segment) {below : List Segment} (hplain : ∀ s ∈ below, Plain s)
    (hne : below ≠ []) : ∃ more, more ≠ "" ∧ rooted (ss ++ below) = rooted ss ++ more := by
  cases ss with
  | nil =>
      refine ⟨String.ofList (['/'].intercalate below), ?_, ?_⟩
      · obtain ⟨s, below, rfl⟩ := List.exists_cons_of_ne_nil hne
        obtain ⟨c, cs, hs⟩ := List.exists_cons_of_ne_nil (hplain s List.mem_cons_self).ne_nil
        subst hs
        intro hempty
        have htext := congrArg String.toList hempty
        cases below <;> simp [List.intercalate] at htext
      · rw [List.nil_append, rooted_eq_append]
        rfl
  | cons s ss =>
      refine ⟨String.ofList ('/' :: ['/'].intercalate below), ?_, ?_⟩
      · intro hempty
        have htext := congrArg String.toList hempty
        simp at htext
      · apply String.toList_inj.1
        rw [toList_rooted, String.toList_append, toList_rooted, String.toList_ofList,
          intercalate_append (List.cons_ne_nil s ss) hne]
        rfl

/-- A directory further down has a longer text. -/
theorem size_lt_of_above {dir dir' : String} (h : isAbsolute dir.toList = true) (h' : isAbsolute dir'.toList = true)
    (habove : parts dir <+: parts dir') (hne : parts dir ≠ parts dir') :
    (normalize dir).utf8ByteSize < (normalize dir').utf8ByteSize := by
  obtain ⟨below, hbelow⟩ := habove
  have hplain : ∀ s ∈ below, Plain s := fun s hs =>
    plain_parts h' s (hbelow ▸ List.mem_append_right _ hs)
  have hcons : below ≠ [] := by
    rintro rfl
    exact hne ((List.append_nil _).symm.trans hbelow)
  obtain ⟨more, hmore, htext⟩ := exists_rooted_append (parts dir) hplain hcons
  have hsize : more.utf8ByteSize ≠ 0 := fun hzero => hmore (String.utf8ByteSize_eq_zero_iff.1 hzero)
  rw [normalize_eq_rooted h, normalize_eq_rooted h', ← hbelow, htext, String.utf8ByteSize_append]
  omega

/-- Of the directories that a path lies in, those with texts that are no longer are no deeper. -/
theorem Within.of_size_le {path dir dir' : String} (h : isAbsolute dir.toList = true)
    (h' : isAbsolute dir'.toList = true) (hdir : Within path dir) (hdir' : Within path dir')
    (hsize : (normalize dir).utf8ByteSize ≤ (normalize dir').utf8ByteSize) : depth dir ≤ depth dir' := by
  rcases hdir.total hdir' with habove | habove
  · exact habove.length_le
  · by_cases hparts : parts dir' = parts dir
    · exact Nat.le_of_eq (congrArg List.length hparts.symm)
    · exact absurd (size_lt_of_above h' h habove hparts) (Nat.not_lt.2 hsize)

/-- From the root nothing is kept that goes up, so a step of the normal form is one of a walk. -/
theorem step_eq_move {stack : List Segment} (hstack : ∀ s ∈ stack, Plain s) {s : Segment} (hs : '/' ∉ s) :
    step true stack s = move stack s := by
  rcases stay_or_up_or_plain hs with hstay | rfl | hplain
  · rw [step_of_stay hstay, move, if_pos hstay]
  · cases stack with
    | nil => rfl
    | cons top below => exact step_up_of_plain (hstack top List.mem_cons_self) true below
  · rw [step_of_plain hplain, move_of_plain hplain]

theorem foldl_step_eq_foldl_move {ss : List Segment} (hss : ∀ s ∈ ss, '/' ∉ s) {stack : List Segment}
    (hstack : ∀ s ∈ stack, Plain s) : ss.foldl (step true) stack = ss.foldl move stack := by
  induction ss generalizing stack with
  | nil => rfl
  | cons s ss ih =>
      obtain ⟨hs, hss⟩ := List.forall_mem_cons.1 hss
      rw [List.foldl_cons, List.foldl_cons, ih hss (plain_step hstack hs), step_eq_move hstack hs]

/-- A relative path is followed from the directory. -/
theorem join_of_relative {dir path : String} (hdir : isAbsolute dir.toList = true)
    (hpath : isAbsolute path.toList = false) : join dir path = rooted (follow (parts dir) path) := by
  have habsolute : isAbsolute (dir ++ "/" ++ path).toList = true := by
    rw [String.toList_append, String.toList_append]
    exact isAbsolute_append (isAbsolute_append hdir _) _
  rw [join, if_neg (Bool.eq_false_iff.1 hpath), normalize_eq_rooted habsolute, parts_append hdir]

/-- A relative path that does not leave a directory leads to a path in it. -/
theorem StaysIn.within {dir path : String} (h : StaysIn dir path) (hdir : isAbsolute dir.toList = true)
    (hpath : isAbsolute path.toList = false) : Within (join dir path) dir := by
  have hplain : ∀ s ∈ (parts dir).reverse, Plain s := fun s hs => plain_parts hdir s (List.mem_reverse.1 hs)
  have hslash : ∀ s ∈ segments path.toList, '/' ∉ s := fun _ => slash_notMem_segments
  have hfollow : ∀ s ∈ follow (parts dir) path, Plain s := fun s hs =>
    plain_foldl_step hslash hplain s (List.mem_reverse.1 hs)
  have hway := h _ (List.prefix_refl _)
  rw [Within, join_of_relative hdir hpath, parts_rooted hfollow, follow, foldl_step_eq_foldl_move hslash hplain]
  rw [← List.reverse_prefix] at hway
  simpa only [parts, List.reverse_reverse] using hway

/-- The names below a directory, put together, are a relative path to what is there. -/
theorem join_rest {dir : String} (hdir : isAbsolute dir.toList = true) {below : List Segment}
    (hplain : ∀ s ∈ below, Plain s) :
    isAbsolute (['/'].intercalate below) = false ∧
      join dir (String.ofList (['/'].intercalate below)) = rooted (parts dir ++ below) := by
  have hrelative : isAbsolute (['/'].intercalate below) = false := by
    cases below with
    | nil => rfl
    | cons s below =>
        exact isAbsolute_render (fun t ht => (hplain t ht).no_slash) (fun t ht => (hplain t ht).ne_nil) false
  have hfollow : follow (parts dir) (String.ofList (['/'].intercalate below)) = parts dir ++ below := by
    rw [follow, String.toList_ofList]
    cases below with
    | nil => simp [segments, step_of_stay]
    | cons s below =>
        have hsegments : segments (['/'].intercalate (s :: below)) = s :: below :=
          List.splitOn_intercalate '/' (fun t ht => (hplain t ht).no_slash) (List.cons_ne_nil s below)
        rw [hsegments, foldl_step_of_plain hplain, List.reverse_append, List.reverse_reverse, List.reverse_reverse]
  refine ⟨hrelative, ?_⟩
  rw [join_of_relative hdir (by rw [String.toList_ofList]; exact hrelative), hfollow]

end BuildGraph.Path
