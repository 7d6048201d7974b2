import BuildGraph.Path
import Mathlib.Data.List.Basic

/-!
# Absolute paths in normal form

An absolute path in normal form is `/` and a list of plain segments, neither empty nor `.` nor `..`. The list and
the path determine each other (`reduce_rooted`, `normalize_eq_rooted`), so questions about texts become questions
about lists: one path lies below another if the segments of the second are those that the first begins with, and
what `stripBase?` leaves are the others.
-/

namespace BuildGraph.Path

/-- A segment that goes down. -/
structure Plain (s : Segment) : Prop where
  ne_nil : s ≠ []
  ne_here : s ≠ here
  ne_up : s ≠ up
  no_slash : '/' ∉ s

/-- The segments of the normal form, the topmost first. -/
def parts (path : String) : List Segment := (reduce path.toList).reverse

/-- The absolute path of some segments. -/
def rooted (ss : List Segment) : String := String.ofList (render true ss)

theorem slash_notMem_segments {cs : List Char} {s : Segment} (h : s ∈ segments cs) : '/' ∉ s := by
  induction cs generalizing s with
  | nil =>
      rw [segments, List.splitOn_nil, List.mem_singleton] at h
      rw [h]
      exact List.not_mem_nil
  | cons c cs ih =>
      rw [segments, List.splitOn_cons_eq_if_modifyHead] at h
      by_cases hc : c = '/'
      · rw [if_pos (beq_iff_eq.2 hc)] at h
        rcases List.mem_cons.1 h with rfl | h
        · exact List.not_mem_nil
        · exact ih h
      · rw [if_neg (mt beq_iff_eq.1 hc)] at h
        obtain ⟨first, rest, hsplit⟩ := List.exists_cons_of_ne_nil (List.splitOn_ne_nil '/' cs)
        rw [hsplit, List.modifyHead_cons] at h
        rw [segments, hsplit] at ih
        rcases List.mem_cons.1 h with rfl | h
        · intro hmem
          rcases List.mem_cons.1 hmem with heq | hmem
          · exact hc heq.symm
          · exact ih List.mem_cons_self hmem
        · exact ih (List.mem_cons_of_mem _ h)

theorem step_of_plain {s : Segment} (h : Plain s) (absolute : Bool) (stack : List Segment) :
    step absolute stack s = s :: stack := by
  have hstay : ¬(s = [] ∨ s = here) := by
    rintro (hs | hs)
    · exact h.ne_nil hs
    · exact h.ne_here hs
  unfold step
  rw [if_neg hstay, if_neg h.ne_up]

/-- From the root only plain segments are ever kept. -/
theorem plain_step {stack : List Segment} (hstack : ∀ s ∈ stack, Plain s) {s : Segment}
    (hs : '/' ∉ s) : ∀ t ∈ step true stack s, Plain t := by
  unfold step
  split
  · exact hstack
  · rename_i hstay
    split
    · cases stack with
      | nil => exact hstack
      | cons top below =>
          have htop := hstack top List.mem_cons_self
          dsimp only
          rw [if_neg htop.ne_up]
          exact fun t ht => hstack t (List.mem_cons_of_mem _ ht)
    · rename_i hup
      rw [not_or] at hstay
      rw [List.forall_mem_cons]
      exact ⟨⟨hstay.1, hstay.2, hup, hs⟩, hstack⟩

theorem plain_foldl_step {ss : List Segment} (hss : ∀ s ∈ ss, '/' ∉ s) {stack : List Segment}
    (hstack : ∀ s ∈ stack, Plain s) : ∀ t ∈ ss.foldl (step true) stack, Plain t := by
  induction ss generalizing stack with
  | nil => exact hstack
  | cons s ss ih =>
      rw [List.forall_mem_cons] at hss
      exact ih hss.2 (plain_step hstack hss.1)

theorem plain_parts {path : String} (h : isAbsolute path.toList = true) : ∀ s ∈ parts path, Plain s := by
  intro s hs
  rw [parts, List.mem_reverse, reduce, h] at hs
  exact plain_foldl_step (fun _ => slash_notMem_segments) (fun _ ht => absurd ht List.not_mem_nil) s hs

theorem normalize_eq_rooted {path : String} (h : isAbsolute path.toList = true) :
    normalize path = rooted (parts path) := by
  rw [normalize, h, rooted, parts]

theorem foldl_step_of_plain {ss : List Segment} (hss : ∀ s ∈ ss, Plain s) (absolute : Bool)
    (stack : List Segment) : ss.foldl (step absolute) stack = ss.reverse ++ stack := by
  induction ss generalizing stack with
  | nil => rfl
  | cons s ss ih =>
      rw [List.forall_mem_cons] at hss
      rw [List.foldl_cons, step_of_plain hss.1, ih hss.2, List.reverse_cons, List.append_assoc]
      rfl

theorem segments_append_slash (cs ds : List Char) : segments (cs ++ '/' :: ds) = segments cs ++ segments ds :=
  List.splitOn_append_cons_self ..

theorem segments_slash_cons (cs : List Char) : segments ('/' :: cs) = [] :: segments cs := by
  rw [segments, List.splitOn_cons_eq_if_modifyHead, if_pos (beq_self_eq_true '/')]
  rfl

/-- A slash in front makes a path absolute and changes nothing else. -/
theorem normalize_slash_append (path : String) :
    normalize ("/" ++ path) = rooted ((segments path.toList).foldl (step true) []).reverse := by
  have htext : ("/" ++ path).toList = '/' :: path.toList := by simp
  rw [normalize, htext, reduce, segments_slash_cons]
  rfl

/-- Where a path leads from a place below the root. -/
def follow (start : List Segment) (path : String) : List Segment :=
  ((segments path.toList).foldl (step true) start.reverse).reverse

/-- How a text goes on does not change whether it is absolute. -/
theorem isAbsolute_append_of_ne_nil {cs : List Char} (h : cs ≠ []) (more : List Char) :
    isAbsolute (cs ++ more) = isAbsolute cs := by
  obtain ⟨c, cs, rfl⟩ := List.exists_cons_of_ne_nil h
  rfl

/-- What begins with an absolute path is absolute. -/
theorem isAbsolute_append {cs : List Char} (h : isAbsolute cs = true) (more : List Char) :
    isAbsolute (cs ++ more) = true := by
  cases cs with
  | nil => cases h
  | cons c cs => exact h

/-- A path behind an absolute one is followed from where that one leads. -/
theorem parts_append {base : String} (h : isAbsolute base.toList = true) (path : String) :
    parts (base ++ "/" ++ path) = follow (parts base) path := by
  have htext : (base ++ "/" ++ path).toList = base.toList ++ '/' :: path.toList := by simp
  have habsolute : isAbsolute (base.toList ++ '/' :: path.toList) = true := isAbsolute_append h _
  rw [parts, reduce, htext, habsolute, segments_append_slash, List.foldl_append, follow, parts, List.reverse_reverse,
    reduce, h]

/-- The name of an entry leads to the entry. -/
theorem follow_plain {path : String} (h : Plain path.toList) (start : List Segment) :
    follow start path = start ++ [path.toList] := by
  have hsegments : segments path.toList = [path.toList] := List.splitOn_eq_singleton h.no_slash
  rw [follow, hsegments, List.foldl_cons, List.foldl_nil, step_of_plain h, List.reverse_cons, List.reverse_reverse]

/-- From the root a path leads to where it leads with a slash in front. -/
theorem join_root (path : String) : join "/" path = normalize ("/" ++ path) := by
  rw [normalize_slash_append, join]
  split
  · rename_i habsolute
    rw [normalize_eq_rooted habsolute, parts, reduce, habsolute]
  · have htext : ("/" ++ path).toList = '/' :: path.toList := by simp
    have happend : "/" ++ "/" ++ path = "/" ++ ("/" ++ path) := String.append_assoc
    rw [happend, normalize_slash_append, htext, segments_slash_cons]
    rfl

@[simp] theorem toList_rooted (ss : List Segment) :
    (rooted ss).toList = '/' :: ['/'].intercalate ss := by
  rw [rooted, String.toList_ofList]
  rfl

@[simp] theorem isAbsolute_rooted (ss : List Segment) : isAbsolute (rooted ss).toList = true := by
  rw [toList_rooted]
  rfl

/-- The segments of an absolute path are found again. -/
theorem parts_rooted {ss : List Segment} (hss : ∀ s ∈ ss, Plain s) : parts (rooted ss) = ss := by
  have hsegments : (segments (rooted ss).toList).foldl (step true) [] = ss.foldl (step true) [] := by
    cases ss with
    | nil => rfl
    | cons s ss =>
        have hsplit := List.splitOn_intercalate '/' (fun s hs => (hss s hs).no_slash) (List.cons_ne_nil s ss)
        rw [toList_rooted, segments, List.splitOn_cons_eq_if_modifyHead, if_pos (beq_self_eq_true '/'),
          hsplit]
        rfl
  rw [parts, reduce, isAbsolute_rooted, hsegments, foldl_step_of_plain hss, List.append_nil,
    List.reverse_reverse]

theorem normalize_rooted {ss : List Segment} (hss : ∀ s ∈ ss, Plain s) :
    normalize (rooted ss) = rooted ss := by
  rw [normalize_eq_rooted (isAbsolute_rooted ss), parts_rooted hss]

/-- The normal form of an absolute path is its own. -/
theorem normalize_normalize {path : String} (h : isAbsolute path.toList = true) :
    isAbsolute (normalize path).toList = true ∧ normalize (normalize path) = normalize path := by
  rw [normalize_eq_rooted h]
  exact ⟨isAbsolute_rooted _, normalize_rooted (plain_parts h)⟩

/-- From an absolute path one comes to an absolute path in normal form. -/
theorem normalize_join {base : String} (h : isAbsolute base.toList = true) (path : String) :
    isAbsolute (join base path).toList = true ∧ normalize (join base path) = join base path := by
  rw [join]
  split
  · rename_i habsolute
    exact normalize_normalize habsolute
  · refine normalize_normalize ?_
    rw [String.toList_append, String.toList_append]
    exact isAbsolute_append (isAbsolute_append h _) _

theorem parts_normalize {path : String} (h : isAbsolute path.toList = true) : parts (normalize path) = parts path := by
  rw [normalize_eq_rooted h, parts_rooted (plain_parts h)]

theorem rooted_inj {ss ts : List Segment} (hss : ∀ s ∈ ss, Plain s) (hts : ∀ t ∈ ts, Plain t) :
    rooted ss = rooted ts ↔ ss = ts := by
  constructor
  · intro h
    rw [← parts_rooted hss, h, parts_rooted hts]
  · rintro rfl
    rfl

theorem intercalate_append {ss ts : List Segment} (hss : ss ≠ []) (hts : ts ≠ []) :
    ['/'].intercalate (ss ++ ts) = ['/'].intercalate ss ++ '/' :: ['/'].intercalate ts := by
  induction ss with
  | nil => exact absurd rfl hss
  | cons s ss ih =>
      cases ss with
      | nil =>
          rw [List.singleton_append, List.intercalate_cons_of_ne_nil hts, List.intercalate_singleton,
            List.append_assoc, List.singleton_append]
      | cons s' ss =>
          have hrest : s' :: ss ≠ [] := List.cons_ne_nil s' ss
          have happend : s' :: ss ++ ts ≠ [] := List.append_ne_nil_of_left_ne_nil hrest ts
          rw [List.cons_append, List.intercalate_cons_of_ne_nil happend, ih hrest,
            List.intercalate_cons_of_ne_nil hrest]
          simp only [List.append_assoc]

/-- What follows behind some segments and a slash are further segments. -/
theorem intercalate_append_eq_iff {ss ts : List Segment} (hss : ∀ s ∈ ss, '/' ∉ s) (hts : ∀ t ∈ ts, '/' ∉ t)
    (hne : ss ≠ []) {rest : List Char} :
    ['/'].intercalate ss ++ '/' :: rest = ['/'].intercalate ts ↔
      ∃ below, below ≠ [] ∧ ts = ss ++ below ∧ rest = ['/'].intercalate below := by
  constructor
  · intro h
    have hts' : ts ≠ [] := by
      rintro rfl
      simp at h
    have hsplit := congrArg (List.splitOn '/') h
    rw [List.splitOn_append_cons_self, List.splitOn_intercalate '/' hss hne,
      List.splitOn_intercalate '/' hts hts'] at hsplit
    exact ⟨rest.splitOn '/', List.splitOn_ne_nil '/' rest, hsplit.symm, (List.intercalate_splitOn '/').symm⟩
  · rintro ⟨below, hbelow, rfl, rfl⟩
    exact (intercalate_append hne hbelow).symm

/-- What follows one absolute path in another, as texts, is what follows in the lists of segments. -/
theorem isPrefixOf?_rooted {ss ts : List Segment} (hss : ∀ s ∈ ss, Plain s) (hts : ∀ t ∈ ts, Plain t)
    (hne : ss ≠ []) {rest : List Char} :
    (rooted ss).toList.isPrefixOf? (rooted ts).toList = some ('/' :: rest) ↔
      ∃ below, below ≠ [] ∧ ts = ss ++ below ∧ rest = ['/'].intercalate below := by
  rw [List.isPrefixOf?_eq_some_iff_append_eq, toList_rooted, toList_rooted, List.cons_append, List.cons_inj_right]
  exact intercalate_append_eq_iff (fun s hs => (hss s hs).no_slash) (fun t ht => (hts t ht).no_slash) hne

/-- An absolute path lies at or below another one if it begins with the segments of that one, and what is left
are the other segments. -/
theorem stripBase?_eq_some_iff {path base rest : String} (hpath : isAbsolute path.toList = true)
    (hbase : isAbsolute base.toList = true) :
    stripBase? path base = some rest ↔
      ∃ below, parts path = parts base ++ below ∧ rest = rooted below := by
  have hp := plain_parts hpath
  have hb := plain_parts hbase
  have hroot : rooted [] = "/" := rfl
  unfold stripBase?
  rw [normalize_eq_rooted hpath, normalize_eq_rooted hbase]
  dsimp only
  by_cases hnil : parts base = []
  · rw [hnil, if_pos hroot]
    simp [eq_comm]
  rw [if_neg (fun h => hnil ((rooted_inj hb (fun _ hs => absurd hs List.not_mem_nil)).1 (h.trans hroot.symm)))]
  by_cases heq : parts path = parts base
  · rw [heq, if_pos rfl, ← hroot]
    simp [eq_comm]
  rw [if_neg (fun h => heq ((rooted_inj hp hb).1 h))]
  constructor
  · intro h
    split at h
    · rename_i text hprefix
      obtain ⟨below, -, hparts, rfl⟩ := (isPrefixOf?_rooted hb hp hnil).1 hprefix
      exact ⟨below, hparts, (Option.some.inj h).symm⟩
    · cases h
  · rintro ⟨below, hparts, rfl⟩
    have hbelow : below ≠ [] := by
      rintro rfl
      exact heq (hparts.trans (List.append_nil _))
    rw [(isPrefixOf?_rooted hb hp hnil).2 ⟨below, hbelow, hparts, rfl⟩]
    rfl

/-- What is left of a path below another one determines it. -/
theorem normalize_eq_of_stripBase? {path path' base rest : String} (hpath : isAbsolute path.toList = true)
    (hpath' : isAbsolute path'.toList = true) (hbase : isAbsolute base.toList = true)
    (h : stripBase? path base = some rest) (h' : stripBase? path' base = some rest) :
    normalize path = normalize path' := by
  obtain ⟨below, hparts, rfl⟩ := (stripBase?_eq_some_iff hpath hbase).1 h
  obtain ⟨below', hparts', hsame⟩ := (stripBase?_eq_some_iff hpath' hbase).1 h'
  have hbelow : ∀ s ∈ below, Plain s := fun s hs =>
    plain_parts hpath s (hparts ▸ List.mem_append_right _ hs)
  have hbelow' : ∀ s ∈ below', Plain s := fun s hs =>
    plain_parts hpath' s (hparts' ▸ List.mem_append_right _ hs)
  rw [normalize_eq_rooted hpath, normalize_eq_rooted hpath', hparts, hparts', (rooted_inj hbelow hbelow').1 hsame]

/-- Whether a path lies below another one depends on its normal form. -/
theorem stripBase?_normalize {path : String} (h : isAbsolute path.toList = true) (base : String) :
    stripBase? (normalize path) base = stripBase? path base := by
  rw [stripBase?, stripBase?, (normalize_normalize h).2]

/-- What is left of a path is in normal form. -/
theorem normalize_of_stripBase?_eq_some {path base rest : String} (hpath : isAbsolute path.toList = true)
    (hbase : isAbsolute base.toList = true) (h : stripBase? path base = some rest) :
    isAbsolute rest.toList = true ∧ normalize rest = rest := by
  obtain ⟨below, hparts, rfl⟩ := (stripBase?_eq_some_iff hpath hbase).1 h
  refine ⟨isAbsolute_rooted below, normalize_rooted fun s hs => plain_parts hpath s ?_⟩
  rw [hparts]
  exact List.mem_append_right _ hs

end BuildGraph.Path
