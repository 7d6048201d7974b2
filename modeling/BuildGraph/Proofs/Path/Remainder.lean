import BuildGraph.Proofs.Path.Climb
import BuildGraph.Proofs.Path.Containment

/-!
# What is left of any path

`stripBase?` compares texts, and it does so for relative paths as well. What it leaves should be an absolute path in
normal form that leads from the base back to the path (`Usable`). For absolute paths it is. In general there are three
things to ask for, and each can fail by itself: a relative path has the root for a base and is left as it is, a path
that goes up further than its base has something left that goes up, and the empty base cannot be joined with anything
(`usable_iff`).
-/

namespace BuildGraph.Path

/-- What comes behind the slash that a path begins with. -/
def behindSlash (path : String) : String := String.ofList path.toList.tail

/-- What is left of a path is an absolute path in normal form, and leads from the base to the path. -/
structure Usable (path base rest : String) : Prop where
  absolute : isAbsolute rest.toList = true
  normal : normalize rest = rest
  joined : join base (behindSlash rest) = normalize path

theorem up_or_plain_of_mem_parts {path : String} {s : Segment} (h : s ∈ parts path) : s = up ∨ Plain s := by
  obtain ⟨names, hplain, hparts, -⟩ := exists_names path
  rw [hparts] at h
  rcases List.mem_append.1 h with h | h
  · exact .inl (List.eq_of_mem_replicate h)
  · exact .inr (hplain s h)

theorem slash_notMem_of_mem_parts {path : String} {s : Segment} (h : s ∈ parts path) : '/' ∉ s := by
  rcases up_or_plain_of_mem_parts h with rfl | hplain
  · decide
  · exact hplain.no_slash

theorem ne_nil_of_mem_parts {path : String} {s : Segment} (h : s ∈ parts path) : s ≠ [] := by
  rcases up_or_plain_of_mem_parts h with rfl | hplain
  · decide
  · exact hplain.ne_nil

theorem here_notMem_parts (path : String) : here ∉ parts path := by
  intro h
  rcases up_or_plain_of_mem_parts h with heq | hplain
  · cases heq
  · exact hplain.ne_here rfl

theorem climb_of_absolute {path : String} (h : isAbsolute path.toList = true) : climb path = 0 := by
  obtain ⟨-, -, -, hclimb⟩ := exists_names path
  exact hclimb h

/-- A path is followed by the segments of its normal form. -/
theorem walk_eq_foldl_parts (stack : List Segment) (path : String) :
    walk stack path = (parts path).foldl move (if isAbsolute path.toList then [] else stack) := by
  obtain ⟨r, habsolute, hstack, hlead⟩ := exists_route path
  rw [parts, ← hstack, ← habsolute, r.foldl_move_stack, hlead]

/-- The segments in the text of a relative normal form. The directory itself is a dot. -/
def shown (ss : List Segment) : List Segment := if ss = [] then [here] else ss

theorem shown_ne_nil (ss : List Segment) : shown ss ≠ [] := by
  unfold shown
  split
  · exact List.cons_ne_nil _ _
  · assumption

theorem slash_notMem_of_mem_shown {path : String} {s : Segment} (h : s ∈ shown (parts path)) : '/' ∉ s := by
  unfold shown at h
  split at h
  · rw [List.mem_singleton.1 h]
    decide
  · exact slash_notMem_of_mem_parts h

/-- A dot has nothing below it. -/
theorem eq_append_of_shown {ss ts below : List Segment} (hts : here ∉ ts) (hbelow : below ≠ [])
    (h : shown ts = shown ss ++ below) : ts = ss ++ below := by
  unfold shown at h
  split at h
  · -- on the left there is a single segment
    have hlength := congrArg List.length h
    have hpos := List.length_pos_of_ne_nil hbelow
    have hshown := List.length_pos_of_ne_nil (shown_ne_nil ss)
    rw [shown] at hshown
    rw [List.length_append, List.length_singleton] at hlength
    omega
  · split at h
    · exact absurd (h ▸ List.mem_cons_self) hts
    · exact h

theorem toList_normalize_of_relative {path : String} (h : isAbsolute path.toList = false) :
    (normalize path).toList = ['/'].intercalate (shown (parts path)) := by
  rw [normalize, String.toList_ofList, h, ← parts, shown, render]
  by_cases hnil : parts path = []
  · rw [if_pos hnil, if_pos hnil]
    rfl
  · rw [if_neg hnil, if_neg hnil]
    rfl

/-- What follows one relative path in another, as texts, is what follows in the lists of segments. -/
theorem exists_below_of_relative {path base : String} (hpath : isAbsolute path.toList = false)
    (hbase : isAbsolute base.toList = false) {text : List Char}
    (h : (normalize base).toList ++ '/' :: text = (normalize path).toList) :
    ∃ below, parts path = parts base ++ below ∧ text = ['/'].intercalate below := by
  rw [toList_normalize_of_relative hpath, toList_normalize_of_relative hbase,
    intercalate_append_eq_iff (fun _ => slash_notMem_of_mem_shown) (fun _ => slash_notMem_of_mem_shown)
      (shown_ne_nil _)] at h
  obtain ⟨below, hbelow, hparts, htext⟩ := h
  exact ⟨below, eq_append_of_shown (here_notMem_parts path) hbelow hparts, htext⟩

/-- A normal form has the segments of one path. -/
theorem parts_eq_of_normalize_eq {p q : String} (h : normalize p = normalize q) : parts p = parts q := by
  obtain ⟨r, -, hstack, hlead⟩ := exists_route p
  obtain ⟨r', -, hstack', hlead'⟩ := exists_route q
  have hroutes : r = r' := Route.eq_of_lead fun stack _ => by
    rw [hlead, hlead', ← walk_normalize, h, walk_normalize]
  rw [parts, parts, ← hstack, ← hstack', hroutes]

theorem isAbsolute_eq_of_normalize_eq {p q : String} (h : normalize p = normalize q) :
    isAbsolute p.toList = isAbsolute q.toList := by
  rw [← isAbsolute_normalize, h, isAbsolute_normalize]

theorem isAbsolute_of_normalize_eq_root {path : String} (h : normalize path = "/") : isAbsolute path.toList = true := by
  rw [← isAbsolute_normalize, h]
  rfl

variable {path base rest : String} {below : List Segment}

/-- If something is left of a path, these are its segments behind those of the base, unless the path is relative and the
base is the root. -/
theorem stripBase?_cases (h : stripBase? path base = some rest) :
    (isAbsolute path.toList = isAbsolute base.toList ∧
        ∃ below, parts path = parts base ++ below ∧ rest = rooted below) ∨
      isAbsolute path.toList = false ∧ normalize base = "/" ∧ rest = normalize path := by
  have hstrip := h
  unfold stripBase? at h
  dsimp only at h
  split at h
  · rename_i hroot
    obtain rfl := Option.some.inj h
    have hbase := isAbsolute_of_normalize_eq_root hroot
    cases hpath : isAbsolute path.toList with
    | true => exact .inl ⟨hbase.symm, (stripBase?_eq_some_iff hpath hbase).1 hstrip⟩
    | false => exact .inr ⟨rfl, hroot, rfl⟩
  split at h
  · rename_i hsame
    obtain rfl := Option.some.inj h
    refine .inl ⟨isAbsolute_eq_of_normalize_eq hsame, [], ?_, rfl⟩
    rw [List.append_nil, parts_eq_of_normalize_eq hsame]
  split at h
  · rename_i text hprefix
    obtain rfl := Option.some.inj h
    rw [List.isPrefixOf?_eq_some_iff_append_eq] at hprefix
    have hne : (normalize base).toList ≠ [] := fun hnil => normalize_ne_empty base (String.toList_eq_nil_iff.1 hnil)
    have habsolute : isAbsolute path.toList = isAbsolute base.toList := by
      rw [← isAbsolute_normalize path, ← hprefix, isAbsolute_append_of_ne_nil hne, isAbsolute_normalize]
    refine .inl ⟨habsolute, ?_⟩
    cases hbase : isAbsolute base.toList with
    | true => exact (stripBase?_eq_some_iff (habsolute.trans hbase) hbase).1 hstrip
    | false =>
        obtain ⟨below, hparts, rfl⟩ := exists_below_of_relative (habsolute.trans hbase) hbase hprefix
        exact ⟨below, hparts, rfl⟩
  · cases h

/-- A path goes up as far as its base just if nothing behind the base goes up. -/
theorem climb_eq_iff (hparts : parts path = parts base ++ below) : climb path = climb base ↔ up ∉ below := by
  rw [climb, climb, hparts, List.count_append, Nat.add_eq_left, List.count_eq_zero]

theorem normalize_rooted_iff (hparts : parts path = parts base ++ below) :
    normalize (rooted below) = rooted below ↔ up ∉ below := by
  have hmem : ∀ s ∈ below, s ∈ parts path := fun s hs => hparts ▸ List.mem_append_right _ hs
  have hcomponents : components (rooted below) = below :=
    components_rooted (fun s hs => slash_notMem_of_mem_parts (hmem s hs)) fun s hs => ne_nil_of_mem_parts (hmem s hs)
  constructor
  · intro h hup
    have hplain := plain_parts (isAbsolute_rooted below)
    rw [← components_normalize (isAbsolute_rooted below), h, hcomponents] at hplain
    exact (hplain up hup).ne_up rfl
  · intro hup
    exact normalize_rooted fun s hs => (up_or_plain_of_mem_parts (hmem s hs)).resolve_left fun heq => hup (heq ▸ hs)

/-- Segments with slashes between them are followed one after another. -/
theorem walk_slashed {ss : List Segment} (hslash : ∀ s ∈ ss, '/' ∉ s) (hne : ∀ s ∈ ss, s ≠ []) (stack : List Segment) :
    walk stack (slashed ss) = ss.foldl move stack := by
  cases ss with
  | nil => rfl
  | cons s ss =>
      have htext : (slashed (s :: ss)).toList = render false (s :: ss) := String.toList_ofList
      rw [walk, htext, isAbsolute_render hslash hne]
      exact foldl_move_render hslash false stack

theorem join_slashed (hbase : base ≠ "") (habsolute : isAbsolute path.toList = isAbsolute base.toList)
    (hparts : parts path = parts base ++ below) : join base (slashed below) = normalize path := by
  have hmem : ∀ s ∈ below, s ∈ parts path := fun s hs => hparts ▸ List.mem_append_right _ hs
  rw [← join_fixed]
  refine normalize_eq_of_walk_eq fun stack _ => ?_
  rw [walk_join hbase, walk_slashed (fun s hs => slash_notMem_of_mem_parts (hmem s hs))
    (fun s hs => ne_nil_of_mem_parts (hmem s hs)), walk_eq_foldl_parts stack path, walk_eq_foldl_parts stack base,
    hparts, List.foldl_append, habsolute]

/-- What is joined to the empty base is at the root. -/
theorem isAbsolute_join_empty (path : String) : isAbsolute (join "" path).toList = true := by
  rw [join_empty]
  exact (normalize_join rfl path).1

theorem behindSlash_rooted (ss : List Segment) : behindSlash (rooted ss) = slashed ss := by
  rw [behindSlash, toList_rooted]
  rfl

theorem isAbsolute_rest_iff (h : stripBase? path base = some rest) :
    isAbsolute rest.toList = true ↔ isAbsolute path.toList = isAbsolute base.toList := by
  rcases stripBase?_cases h with ⟨habsolute, below, -, rfl⟩ | ⟨hpath, hroot, rfl⟩
  · exact iff_of_true (isAbsolute_rooted below) habsolute
  · rw [isAbsolute_normalize, hpath, isAbsolute_of_normalize_eq_root hroot]

theorem climb_eq_of_root (hroot : normalize base = "/")
    (habsolute : isAbsolute path.toList = isAbsolute base.toList) : climb path = climb base := by
  have hbase := isAbsolute_of_normalize_eq_root hroot
  rw [climb_of_absolute (habsolute.trans hbase), climb_of_absolute hbase]

theorem normalize_rest_iff (h : stripBase? path base = some rest) :
    normalize rest = rest ↔ normalize base = "/" ∨ climb path = climb base := by
  rcases stripBase?_cases h with ⟨habsolute, below, hparts, rfl⟩ | ⟨-, hroot, rfl⟩
  · rw [normalize_rooted_iff hparts, ← climb_eq_iff hparts]
    exact ⟨.inr, fun hclimb => hclimb.elim (fun hroot => climb_eq_of_root hroot habsolute) id⟩
  · exact iff_of_true (normalize_fixed path) (.inl hroot)

theorem join_rest_iff (h : stripBase? path base = some rest)
    (habsolute : isAbsolute path.toList = isAbsolute base.toList) :
    join base (behindSlash rest) = normalize path ↔ base ≠ "" := by
  constructor
  · rintro hjoin rfl
    have hrest := isAbsolute_join_empty (behindSlash rest)
    rw [hjoin, isAbsolute_normalize, habsolute] at hrest
    cases hrest
  · intro hbase
    rcases stripBase?_cases h with ⟨-, below, hparts, rfl⟩ | ⟨hpath, hroot, -⟩
    · rw [behindSlash_rooted, join_slashed hbase habsolute hparts]
    · rw [hpath, isAbsolute_of_normalize_eq_root hroot] at habsolute
      cases habsolute

/-- What is left of a path is absolute just if the path and the base are both absolute or both relative. It is in normal
form just if the base is the root or the path goes up as far as the base. And as long as it is absolute, it leads from
the base to the path just if the base is not empty. All of this makes it usable, as it always is for absolute paths. -/
theorem usable_iff (h : stripBase? path base = some rest) :
    (isAbsolute rest.toList = true ↔ isAbsolute path.toList = isAbsolute base.toList) ∧
      (normalize rest = rest ↔ normalize base = "/" ∨ climb path = climb base) ∧
      (isAbsolute path.toList = isAbsolute base.toList →
        (join base (behindSlash rest) = normalize path ↔ base ≠ "")) ∧
      (Usable path base rest ↔
        base ≠ "" ∧ isAbsolute path.toList = isAbsolute base.toList ∧ climb path = climb base) ∧
      (isAbsolute path.toList = true → isAbsolute base.toList = true → Usable path base rest) := by
  have habsolute := isAbsolute_rest_iff h
  have hnormal := normalize_rest_iff h
  have hjoin := join_rest_iff h
  have husable : Usable path base rest ↔
      base ≠ "" ∧ isAbsolute path.toList = isAbsolute base.toList ∧ climb path = climb base := by
    constructor
    · intro husable
      have hsame := habsolute.1 husable.absolute
      refine ⟨(hjoin hsame).1 husable.joined, hsame, ?_⟩
      exact (hnormal.1 husable.normal).elim (fun hroot => climb_eq_of_root hroot hsame) id
    · rintro ⟨hbase, hsame, hclimb⟩
      exact ⟨habsolute.2 hsame, hnormal.2 (.inr hclimb), (hjoin hsame).2 hbase⟩
  refine ⟨habsolute, hnormal, hjoin, husable, fun hpath hbase => ?_⟩
  have hclimb := (climb_of_absolute hpath).trans (climb_of_absolute hbase).symm
  exact husable.2 ⟨ne_empty_of_isAbsolute hbase, hpath.trans hbase.symm, hclimb⟩

/-- From a directory further up, spelled with dots, a relative path is reached by what is left of it. -/
theorem usable_iff_upwards :
    stripBase? "../../src/./main" ".././..//lib/.." = some "/src/main" ∧
      Usable "../../src/./main" ".././..//lib/.." "/src/main" := by
  have hrest : stripBase? "../../src/./main" ".././..//lib/.." = some "/src/main" := by decide +kernel
  obtain ⟨-, -, -, husable, -⟩ := usable_iff hrest
  exact ⟨hrest, husable.2 ⟨by decide, rfl, by decide +kernel⟩⟩

/-- A relative path is left as it is by the root. What lies further up is taken for something below, and has a rest that
goes up. And the empty base leads to the root. -/
theorem unusable_rests :
    (stripBase? "a" "/" = some "a" ∧ isAbsolute "a".toList = false ∧ ¬Usable "a" "/" "a") ∧
      (stripBase? "../.." ".." = some "/.." ∧ normalize "/.." = "/" ∧ ¬Usable "../.." ".." "/..") ∧
      (stripBase? "" "" = some "/" ∧ join "" (behindSlash "/") = "/" ∧ normalize "" = "." ∧ ¬Usable "" "" "/") :=
  ⟨⟨by decide +kernel, rfl, fun h => absurd h.absolute (by decide)⟩,
    ⟨by decide +kernel, by decide +kernel, fun h => absurd h.normal (by decide +kernel)⟩,
    by decide +kernel, by decide +kernel, by decide +kernel, fun h => absurd h.joined (by decide +kernel)⟩

end BuildGraph.Path
