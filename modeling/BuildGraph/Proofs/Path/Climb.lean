import BuildGraph.Proofs.Path.Join

/-!
# How far a path climbs

A normal form goes up some number of times before it goes down (`climb`), an absolute one never. So a path leads to its
names, put behind what is left of the place that it is followed from (`exists_names`, `exists_foldl_move`).

Each segment takes the path up no more than once, and what has been left stays left (`count_up_step`). So a path that
does not climb stays in the directory that it is followed from on every part of the way, and one that climbs has a
first part that ends just above (`staysIn_iff`). Only from the root there is nothing above.
-/

namespace BuildGraph.Path

/-- How often the normal form of some segments goes up. -/
def ascent (ss : List Segment) : Nat := (ss.foldl (step false) []).count up

/-- How often the normal form of a path goes up. -/
def climb (path : String) : Nat := (parts path).count up

theorem count_up_of_plain {names : List Segment} (h : ∀ s ∈ names, Plain s) : names.count up = 0 :=
  List.count_eq_zero.2 fun hup => (h up hup).ne_up rfl

namespace Route

theorem count_up_stack (r : Route) : r.stack.count up = r.climb := by
  rw [stack, List.count_append, count_up_of_plain r.plain, List.count_replicate_self, Nat.zero_add]

end Route

/-- A normal form goes up first and then down through names. From the root it does not go up. -/
theorem exists_names (path : String) :
    ∃ names : List Segment, (∀ s ∈ names, Plain s) ∧ parts path = List.replicate (climb path) up ++ names ∧
      (isAbsolute path.toList = true → climb path = 0) := by
  obtain ⟨r, habsolute, hstack, -⟩ := exists_route path
  have hclimb : climb path = r.climb := by rw [climb, parts, List.count_reverse, ← hstack, r.count_up_stack]
  refine ⟨r.names.reverse, fun s hs => r.plain s (List.mem_reverse.1 hs), ?_, fun h => ?_⟩
  · rw [parts, ← hstack, hclimb, Route.stack, List.reverse_append, List.reverse_replicate]
  · rw [hclimb, r.grounded (habsolute.trans h)]

/-- Some segments lead to names, put behind what they leave. -/
theorem exists_foldl_move {ss : List Segment} (hss : ∀ s ∈ ss, '/' ∉ s) :
    ∃ names : List Segment, (∀ s ∈ names, Plain s) ∧
      ss.foldl (step false) [] = names ++ List.replicate (ascent ss) up ∧
      ∀ stack, ss.foldl move stack = names ++ stack.drop (ascent ss) := by
  have hnames : ∀ s ∈ ([] : List Segment), Plain s := fun _ hs => absurd hs List.not_mem_nil
  obtain ⟨r, habsolute, hstack, hlead⟩ := Route.exists_foldl_step hss ⟨false, 0, [], hnames, nofun⟩
  have hascent : ascent ss = r.climb := by
    rw [← r.count_up_stack, hstack]
    rfl
  refine ⟨r.names, r.plain, ?_, fun stack => ?_⟩
  · rw [hascent]
    exact hstack.symm
  · rw [hascent, ← Route.lead_of_relative habsolute, hlead]
    rfl

/-- A segment goes up once more only where there is nothing but what goes up. -/
theorem count_up_step (stack : List Segment) (s : Segment) :
    (step false stack s).count up = stack.count up ∨
      s = up ∧ step false stack s = up :: stack ∧ (stack = [] ∨ 0 < stack.count up) := by
  unfold step
  split
  · exact .inl rfl
  split
  · rename_i hup
    cases stack with
    | nil => exact .inr ⟨hup, rfl, .inl rfl⟩
    | cons top below =>
        dsimp only
        split
        · rename_i htop
          refine .inr ⟨hup, rfl, .inr ?_⟩
          rw [htop, List.count_cons_self]
          exact Nat.succ_pos _
        · rename_i htop
          exact .inl (List.count_cons_of_ne htop).symm
  · rename_i hup
    exact .inl (List.count_cons_of_ne hup)

theorem ascent_concat (ss : List Segment) (s : Segment) :
    ascent (ss ++ [s]) = (step false (ss.foldl (step false) []) s).count up := by
  rw [ascent, List.foldl_append]
  rfl

/-- A part of the way goes up no further than the whole. -/
theorem ascent_le_of_prefix {way ss : List Segment} (h : way <+: ss) : ascent way ≤ ascent ss := by
  obtain ⟨rest, rfl⟩ := h
  induction rest using List.reverseRecOn with
  | nil => rw [List.append_nil]
  | append_singleton rest s ih =>
      rw [← List.append_assoc, ascent_concat]
      refine ih.trans ?_
      rcases count_up_step ((way ++ rest).foldl (step false) []) s with h | ⟨-, h, -⟩
      · exact Nat.le_of_eq h.symm
      · rw [h, List.count_cons_self]
        exact Nat.le_succ _

/-- What goes up has a first part that leads just above the place that it is followed from. -/
theorem exists_way_up {ss : List Segment} (hss : ∀ s ∈ ss, '/' ∉ s) (h : ascent ss ≠ 0) :
    ∃ way, way <+: ss ∧ ∀ stack, way.foldl move stack = stack.tail := by
  induction ss using List.reverseRecOn with
  | nil => exact absurd rfl h
  | append_singleton ss s ih =>
      have hinit : ∀ t ∈ ss, '/' ∉ t := fun t ht => hss t (List.mem_append_left _ ht)
      by_cases hascent : ascent ss = 0
      · -- the last segment goes up, from where all names before it have been taken back
        rw [ascent_concat] at h
        rcases count_up_step (ss.foldl (step false) []) s with hstep | ⟨rfl, -, hstep | hstep⟩
        · exact absurd (hstep.trans hascent) h
        · obtain ⟨names, -, hnames, hlead⟩ := exists_foldl_move hinit
          obtain rfl := (List.append_eq_nil_iff.1 (hnames.symm.trans hstep)).1
          refine ⟨_, List.prefix_refl _, fun stack => ?_⟩
          rw [List.foldl_append, hlead, hascent]
          rfl
        · exact absurd hascent (Nat.ne_of_gt hstep)
      · obtain ⟨way, hway, htail⟩ := ih hinit hascent
        exact ⟨way, hway.trans (List.prefix_append _ _), htail⟩

theorem climb_of_relative {path : String} (h : isAbsolute path.toList = false) :
    climb path = ascent (segments path.toList) := by
  rw [climb, parts, List.count_reverse, reduce, h, ascent]

/-- A relative path leads to its names, put behind what it leaves of the place that it is followed from. -/
theorem exists_walk_eq {path : String} (h : isAbsolute path.toList = false) :
    ∃ names : List Segment, (∀ s ∈ names, Plain s) ∧ ∀ stack, walk stack path = names ++ stack.drop (climb path) := by
  have hslash : ∀ s ∈ segments path.toList, '/' ∉ s := fun _ => slash_notMem_segments
  obtain ⟨names, hplain, -, hlead⟩ := exists_foldl_move hslash
  refine ⟨names, hplain, fun stack => ?_⟩
  rw [walk_of_relative h, hlead, climb_of_relative h]

/-- A relative path stays in a directory just if it does not climb, or if there is nothing above. -/
theorem staysIn_iff {dir path : String} (hpath : isAbsolute path.toList = false) :
    StaysIn dir path ↔ climb path = 0 ∨ parts dir = [] := by
  have hslash : ∀ s ∈ segments path.toList, '/' ∉ s := fun _ => slash_notMem_segments
  rw [climb_of_relative hpath, parts, List.reverse_eq_nil_iff]
  constructor
  · intro h
    by_contra hout
    obtain ⟨hascent, hdir⟩ := not_or.1 hout
    obtain ⟨way, hway, htail⟩ := exists_way_up hslash hascent
    have hlength := (h way hway).length_le
    have hpos := List.length_pos_of_ne_nil hdir
    rw [htail, List.length_tail] at hlength
    omega
  · rintro (hascent | hdir) way hway
    · have hzero : ascent way = 0 := Nat.le_zero.1 (hascent ▸ ascent_le_of_prefix hway)
      obtain ⟨names, -, -, hnames⟩ := exists_foldl_move fun s hs => hslash s (hway.subset hs)
      rw [hnames, hzero]
      exact List.suffix_append names _
    · rw [hdir]
      exact List.nil_suffix

/-- What a path leads to from a directory is what it leads to from the root, put behind the directory, just if nothing
of the directory is left on the way. -/
theorem join_eq_rooted_iff {dir path : String} (hdir : isAbsolute dir.toList = true)
    (hpath : isAbsolute path.toList = false) :
    join dir path = rooted (parts dir ++ parts (join "/" path)) ↔ climb path = 0 ∨ parts dir = [] := by
  obtain ⟨names, hplain, hwalk⟩ := exists_walk_eq hpath
  have hne := ne_empty_of_isAbsolute hdir
  have hjoin := normalize_join hdir path
  have hplace : parts (join dir path) = ((walk [] dir).drop (climb path)).reverse ++ names.reverse := by
    rw [← walk_nil_of_absolute hjoin.1, walk_join hne, hwalk, List.reverse_append]
  have hroot : parts (join "/" path) = names.reverse := by
    have hempty : walk [] "/" = [] := by decide
    rw [← walk_nil_of_absolute (normalize_join rfl path).1, walk_join (by decide), hwalk, hempty, List.drop_nil,
      List.append_nil]
  have hdirPlain : ∀ s ∈ parts dir ++ parts (join "/" path), Plain s := by
    intro s hs
    rcases List.mem_append.1 hs with hs | hs
    · exact plain_parts hdir s hs
    · exact plain_parts (normalize_join rfl path).1 s hs
  rw [← hjoin.2, normalize_eq_rooted hjoin.1, rooted_inj (plain_parts hjoin.1) hdirPlain, hplace, hroot,
    List.append_cancel_right_eq, ← walk_nil_of_absolute hdir, List.reverse_inj, List.reverse_eq_nil_iff]
  constructor
  · intro h
    have hlength := congrArg List.length h
    rw [List.length_drop] at hlength
    rw [← List.length_eq_zero_iff]
    omega
  · rintro (h | h)
    · rw [h, List.drop_zero]
    · rw [h, List.drop_nil]

end BuildGraph.Path
