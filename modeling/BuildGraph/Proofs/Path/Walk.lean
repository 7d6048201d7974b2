import BuildGraph.Proofs.Path.Normal

/-!
# Following a path

To follow a path from some directory is to go through its segments one by one: `..` goes up, and stays at the root,
a name goes down. The directory is given as a stack of names, the deepest first, and an absolute path starts at the
root wherever one is (`walk`). This is said without a normal form.

A normal form goes up a number of times and then down through names (`Route`). So the place that it leads to is made of
what is left of the stack and of the names (`Route.lead`), and from there the route can be read off again, as long as
one may start anywhere (`Route.eq_of_lead`). Every path has a route, one segment after another keeping it
(`exists_route`). So the normal form of a path is followed like the path itself, and paths that cannot be told apart by
following them have the same one (`normalize_eq_iff_walk_eq`).
-/

namespace BuildGraph.Path

/-- One segment further. Above the root there is nothing. -/
def move (stack : List Segment) (s : Segment) : List Segment :=
  if s = [] ∨ s = here then stack
  else if s = up then stack.tail
  else s :: stack

/-- Where a path leads from a directory. -/
def walk (stack : List Segment) (path : String) : List Segment :=
  (segments path.toList).foldl move (if isAbsolute path.toList then [] else stack)

/-- A segment stays, goes up, or goes down. -/
theorem stay_or_up_or_plain {s : Segment} (hs : '/' ∉ s) : (s = [] ∨ s = here) ∨ s = up ∨ Plain s := by
  by_cases hstay : s = [] ∨ s = here
  · exact .inl hstay
  by_cases hup : s = up
  · exact .inr (.inl hup)
  · exact .inr (.inr ⟨(not_or.1 hstay).1, (not_or.1 hstay).2, hup, hs⟩)

theorem move_of_plain {s : Segment} (h : Plain s) (stack : List Segment) : move stack s = s :: stack := by
  have hstay : ¬(s = [] ∨ s = here) := not_or.2 ⟨h.ne_nil, h.ne_here⟩
  rw [move, if_neg hstay, if_neg h.ne_up]

theorem move_up (stack : List Segment) : move stack up = stack.tail := rfl

theorem step_of_stay {s : Segment} (h : s = [] ∨ s = here) (absolute : Bool) (stack : List Segment) :
    step absolute stack s = stack := by
  unfold step
  exact if_pos h

/-- A name is taken back. -/
theorem step_up_of_plain {name : Segment} (h : Plain name) (absolute : Bool) (stack : List Segment) :
    step absolute (name :: stack) up = stack := by
  unfold step
  rw [if_neg (by decide), if_pos rfl]
  exact if_neg h.ne_up

/-- Where there is nothing to take back a relative path keeps what goes up. -/
theorem step_up_of_replicate (count : Nat) :
    step false (List.replicate count up) up = List.replicate (count + 1) up := by
  cases count <;> rfl

theorem foldl_move_of_plain {ss : List Segment} (hss : ∀ s ∈ ss, Plain s) (stack : List Segment) :
    ss.foldl move stack = ss.reverse ++ stack := by
  induction ss generalizing stack with
  | nil => rfl
  | cons s ss ih =>
      obtain ⟨hs, hss⟩ := List.forall_mem_cons.1 hss
      rw [List.foldl_cons, move_of_plain hs, ih hss, List.reverse_cons, List.append_assoc]
      rfl

theorem foldl_move_replicate_up (count : Nat) (stack : List Segment) :
    (List.replicate count up).foldl move stack = stack.drop count := by
  induction count generalizing stack with
  | zero => rfl
  | succ count ih => rw [List.replicate_succ, List.foldl_cons, move_up, ih, List.drop_tail]

/-- A path in normal form, taken apart: whether it starts at the root, how often it goes up, and the names that it goes
down through behind that, the deepest first. From the root it does not go up. -/
@[ext] structure Route where
  absolute : Bool
  climb : Nat
  names : List Segment
  plain : ∀ s ∈ names, Plain s
  grounded : absolute = true → climb = 0

namespace Route

/-- The segments, the deepest first. -/
def stack (r : Route) : List Segment := r.names ++ List.replicate r.climb up

/-- Where the route leads from a directory. -/
def lead (r : Route) (stack : List Segment) : List Segment :=
  r.names ++ (if r.absolute then [] else stack).drop r.climb

theorem lead_of_absolute {r : Route} (h : r.absolute = true) (stack : List Segment) : r.lead stack = r.names := by
  rw [lead, if_pos h, List.drop_nil, List.append_nil]

theorem lead_of_relative {r : Route} (h : r.absolute = false) (stack : List Segment) :
    r.lead stack = r.names ++ stack.drop r.climb := by
  rw [lead, h]
  rfl

/-- The segments of a route are followed to where the route leads. -/
theorem foldl_move_stack (r : Route) (stack : List Segment) :
    r.stack.reverse.foldl move (if r.absolute then [] else stack) = r.lead stack := by
  have hplain : ∀ s ∈ r.names.reverse, Plain s := fun s hs => r.plain s (List.mem_reverse.1 hs)
  rw [Route.stack, List.reverse_append, List.reverse_replicate, List.foldl_append, foldl_move_replicate_up,
    foldl_move_of_plain hplain, List.reverse_reverse, lead]

theorem slash_notMem_stack (r : Route) : ∀ s ∈ r.stack, '/' ∉ s := by
  intro s hs
  rcases List.mem_append.1 hs with hs | hs
  · exact (r.plain s hs).no_slash
  · rw [List.eq_of_mem_replicate hs]
    decide

theorem ne_nil_of_mem_stack (r : Route) : ∀ s ∈ r.stack, s ≠ [] := by
  intro s hs
  rcases List.mem_append.1 hs with hs | hs
  · exact (r.plain s hs).ne_nil
  · rw [List.eq_of_mem_replicate hs]
    decide

/-- A segment takes a route to another one, which leads to the place that the segment leads to. -/
theorem exists_step (r : Route) {s : Segment} (hs : '/' ∉ s) :
    ∃ r' : Route, r'.absolute = r.absolute ∧ r'.stack = step r.absolute r.stack s ∧
      ∀ stack, r'.lead stack = move (r.lead stack) s := by
  rcases stay_or_up_or_plain hs with hstay | rfl | hplain
  · exact ⟨r, rfl, (step_of_stay hstay _ _).symm, fun stack => (if_pos hstay).symm⟩
  · obtain ⟨absolute, climb, names, hplain, hgrounded⟩ := r
    cases names with
    | cons name names =>
        obtain ⟨hname, hnames⟩ := List.forall_mem_cons.1 hplain
        exact ⟨⟨absolute, climb, names, hnames, hgrounded⟩, rfl, (step_up_of_plain hname _ _).symm, fun _ => rfl⟩
    | nil =>
        cases absolute with
        | true =>
            obtain rfl := hgrounded rfl
            exact ⟨⟨true, 0, [], hplain, hgrounded⟩, rfl, rfl, fun _ => rfl⟩
        | false =>
            refine ⟨⟨false, climb + 1, [], hplain, nofun⟩, rfl, (step_up_of_replicate climb).symm, fun stack => ?_⟩
            rw [lead_of_relative rfl, lead_of_relative rfl, move_up]
            exact List.tail_drop.symm
  · refine ⟨⟨r.absolute, r.climb, s :: r.names, List.forall_mem_cons.2 ⟨hplain, r.plain⟩, r.grounded⟩, rfl, ?_, ?_⟩
    · rw [step_of_plain hplain]
      rfl
    · intro stack
      rw [move_of_plain hplain]
      rfl

theorem exists_foldl_step {ss : List Segment} (hss : ∀ s ∈ ss, '/' ∉ s) (r : Route) :
    ∃ r' : Route, r'.absolute = r.absolute ∧ r'.stack = ss.foldl (step r.absolute) r.stack ∧
      ∀ stack, r'.lead stack = ss.foldl move (r.lead stack) := by
  induction ss generalizing r with
  | nil => exact ⟨r, rfl, rfl, fun _ => rfl⟩
  | cons s ss ih =>
      obtain ⟨hs, hss⟩ := List.forall_mem_cons.1 hss
      obtain ⟨r₁, habsolute, hstack, hlead⟩ := r.exists_step hs
      obtain ⟨r₂, habsolute₂, hstack₂, hlead₂⟩ := ih hss r₁
      refine ⟨r₂, habsolute₂.trans habsolute, ?_, fun stack => ?_⟩
      · rw [hstack₂, habsolute, hstack, List.foldl_cons]
      · rw [hlead₂, hlead, List.foldl_cons]

/-- A place with `count` directories above it, all with the same name. -/
def deep (name : Char) (count : Nat) : List Segment := List.replicate count [name]

theorem plain_deep {name : Char} (hslash : name ≠ '/') (hdot : name ≠ '.') (count : Nat) :
    ∀ s ∈ deep name count, Plain s := by
  intro s hs
  rw [List.eq_of_mem_replicate hs]
  refine ⟨List.cons_ne_nil _ _, ?_, ?_, ?_⟩
  · simpa [here] using hdot
  · simp [up]
  · simpa using hslash.symm

/-- An absolute route leads to one place, a relative one to places of any depth. -/
theorem absolute_eq_of_lead {r r' : Route}
    (h : ∀ stack, (∀ s ∈ stack, Plain s) → r.lead stack = r'.lead stack) (hr : r.absolute = true) :
    r'.absolute = true := by
  by_contra hrelative
  rw [Bool.not_eq_true] at hrelative
  have hlength : ∀ count, r.names.length = r'.names.length + (count - r'.climb) := by
    intro count
    have hplaces := congrArg List.length (h _ (plain_deep (by decide : 'a' ≠ '/') (by decide) count))
    rwa [lead_of_absolute hr, lead_of_relative hrelative, List.length_append, List.length_drop, deep,
      List.length_replicate] at hplaces
  have hnear := hlength r'.climb
  have hfar := hlength (r'.climb + 1)
  omega

/-- Where a route goes up further than another one, it would have to come down again through what it has left, which may
be anything. -/
theorem eq_of_lead_of_le {r r' : Route} (h : ∀ stack, (∀ s ∈ stack, Plain s) → r.lead stack = r'.lead stack)
    (hr : r.absolute = false) (hr' : r'.absolute = false) (hle : r.climb ≤ r'.climb) : r = r' := by
  have hnames : ∀ name : Char, name ≠ '/' → name ≠ '.' →
      r.names ++ deep name (r'.climb - r.climb) = r'.names := by
    intro name hslash hdot
    have hplaces := h _ (plain_deep hslash hdot r'.climb)
    rwa [lead_of_relative hr, lead_of_relative hr', deep, List.drop_replicate, List.drop_replicate, Nat.sub_self,
      List.replicate_zero, List.append_nil] at hplaces
  have hsame := List.append_cancel_left
    ((hnames 'a' (by decide) (by decide)).trans (hnames 'b' (by decide) (by decide)).symm)
  have hclimb : r'.climb - r.climb = 0 := by
    by_contra hne
    obtain ⟨count, hcount⟩ := Nat.exists_eq_succ_of_ne_zero hne
    rw [hcount, deep, deep, List.replicate_succ, List.replicate_succ] at hsame
    exact absurd (List.cons.inj hsame).1 (by decide)
  have hnames := hnames 'a' (by decide) (by decide)
  rw [hclimb] at hnames
  refine Route.ext (hr.trans hr'.symm) (by omega) ?_
  rw [← hnames]
  exact (List.append_nil _).symm

/-- Routes that lead to the same places from everywhere are the same. -/
theorem eq_of_lead {r r' : Route} (h : ∀ stack, (∀ s ∈ stack, Plain s) → r.lead stack = r'.lead stack) : r = r' := by
  have h' : ∀ stack, (∀ s ∈ stack, Plain s) → r'.lead stack = r.lead stack := fun stack hs => (h stack hs).symm
  cases hr : r.absolute with
  | true =>
      have hr' := absolute_eq_of_lead h hr
      have hnames := h [] (fun _ hs => absurd hs List.not_mem_nil)
      rw [lead_of_absolute hr, lead_of_absolute hr'] at hnames
      exact Route.ext (hr.trans hr'.symm) ((r.grounded hr).trans (r'.grounded hr').symm) hnames
  | false =>
      have hr' : r'.absolute = false := by
        by_contra hne
        rw [Bool.not_eq_false] at hne
        exact absurd (hr.symm.trans (absolute_eq_of_lead h' hne)) (by decide)
      rcases Nat.le_total r.climb r'.climb with hle | hle
      · exact eq_of_lead_of_le h hr hr' hle
      · exact (eq_of_lead_of_le h' hr' hr hle).symm

end Route

/-- Every path has a route, which has the segments of its normal form and leads where the path leads. -/
theorem exists_route (path : String) :
    ∃ r : Route, r.absolute = isAbsolute path.toList ∧ r.stack = reduce path.toList ∧
      ∀ stack, r.lead stack = walk stack path :=
  Route.exists_foldl_step (fun _ => slash_notMem_segments)
    ⟨isAbsolute path.toList, 0, [], fun _ hs => absurd hs List.not_mem_nil, fun _ => rfl⟩

/-- Apart from segments that stay, the text of some segments has these segments. -/
theorem foldl_move_render {ss : List Segment} (hss : ∀ s ∈ ss, '/' ∉ s) (absolute : Bool) (stack : List Segment) :
    (segments (render absolute ss)).foldl move stack = ss.foldl move stack := by
  cases ss with
  | nil => cases absolute <;> rfl
  | cons s ss =>
      have hsplit : segments (['/'].intercalate (s :: ss)) = s :: ss :=
        List.splitOn_intercalate '/' hss (List.cons_ne_nil s ss)
      cases absolute with
      | true =>
          rw [render, if_pos rfl, segments_slash_cons, hsplit]
          rfl
      | false => rw [render, if_neg Bool.false_ne_true, if_neg (List.cons_ne_nil s ss), hsplit]

theorem isAbsolute_render {ss : List Segment} (hslash : ∀ s ∈ ss, '/' ∉ s) (hne : ∀ s ∈ ss, s ≠ [])
    (absolute : Bool) : isAbsolute (render absolute ss) = absolute := by
  cases absolute with
  | true => rfl
  | false =>
      match ss, hslash, hne with
      | [], _, _ => rfl
      | [] :: _, _, hne => exact absurd rfl (hne [] List.mem_cons_self)
      | (c :: cs) :: ss, hslash, _ =>
          have hc : c ≠ '/' := fun h => hslash _ List.mem_cons_self (h ▸ List.mem_cons_self)
          cases ss <;> simpa [render, isAbsolute, List.intercalate] using hc

/-- A normal form is absolute if the path is. -/
theorem isAbsolute_normalize (path : String) : isAbsolute (normalize path).toList = isAbsolute path.toList := by
  obtain ⟨r, -, hstack, -⟩ := exists_route path
  rw [normalize, String.toList_ofList, ← hstack]
  exact isAbsolute_render (fun s hs => r.slash_notMem_stack s (List.mem_reverse.1 hs))
    (fun s hs => r.ne_nil_of_mem_stack s (List.mem_reverse.1 hs)) _

/-- A normal form is followed like the path. -/
theorem walk_normalize (stack : List Segment) (path : String) : walk stack (normalize path) = walk stack path := by
  obtain ⟨r, habsolute, hstack, hlead⟩ := exists_route path
  have hslash : ∀ s ∈ r.stack.reverse, '/' ∉ s := fun s hs => r.slash_notMem_stack s (List.mem_reverse.1 hs)
  rw [walk, isAbsolute_normalize, normalize, String.toList_ofList, ← hstack, foldl_move_render hslash, ← habsolute,
    r.foldl_move_stack, hlead]

/-- Paths that lead to the same places have the same normal form. -/
theorem normalize_eq_of_walk_eq {p q : String}
    (h : ∀ stack, (∀ s ∈ stack, Plain s) → walk stack p = walk stack q) : normalize p = normalize q := by
  obtain ⟨r, habsolute, hstack, hlead⟩ := exists_route p
  obtain ⟨r', habsolute', hstack', hlead'⟩ := exists_route q
  have hroutes : r = r' := Route.eq_of_lead fun stack hplain => by rw [hlead, hlead', h stack hplain]
  rw [normalize, normalize, ← habsolute, ← hstack, ← habsolute', ← hstack', hroutes]

/-- Two paths have the same normal form just if they are followed to the same place from every directory, which it is
enough to say of directories with plain names. The normal form of a path is followed like the path itself, so it is its
own normal form, and it is absolute if the path is. -/
theorem normalize_eq_iff_walk_eq (p q : String) :
    (normalize p = normalize q ↔ ∀ stack, walk stack p = walk stack q) ∧
      (normalize p = normalize q ↔ ∀ stack, (∀ s ∈ stack, Plain s) → walk stack p = walk stack q) ∧
      (∀ stack, walk stack (normalize p) = walk stack p) ∧
      normalize (normalize p) = normalize p ∧
      isAbsolute (normalize p).toList = isAbsolute p.toList := by
  have hsound : normalize p = normalize q → ∀ stack, walk stack p = walk stack q := by
    intro h stack
    rw [← walk_normalize, h, walk_normalize]
  refine ⟨⟨hsound, fun h => normalize_eq_of_walk_eq fun stack _ => h stack⟩,
    ⟨fun h stack _ => hsound h stack, normalize_eq_of_walk_eq⟩, fun stack => walk_normalize stack p, ?_,
    isAbsolute_normalize p⟩
  exact normalize_eq_of_walk_eq fun stack _ => walk_normalize stack p

end BuildGraph.Path
