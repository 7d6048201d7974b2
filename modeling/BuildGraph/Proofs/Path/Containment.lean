import BuildGraph.Proofs.Path.Within

/-!
# Containment of absolute paths

One absolute path lies in another if something is left of it when the other is stripped off (`LiesIn`). It does not
matter that the texts of the normal forms are compared for this: what decides is the components, that is, what stands
between the slashes of a normal form. A path lies in another if its components begin with those of the other, and what
is left are the components behind them (`liesIn_iff`, `stripBase?_of_components`). So containment is an order of normal
forms, and stripping off one path and then another strips off the two joined (`stripBase?_bind`).
-/

namespace BuildGraph.Path

/-- What stands between the slashes of a text. -/
def components (path : String) : List Segment := (segments path.toList).filter (· ≠ [])

/-- Some components with a slash between them. -/
def slashed (ss : List Segment) : String := String.ofList (['/'].intercalate ss)

/-- A path is another one or lies below it. -/
def LiesIn (path base : String) : Prop := (stripBase? path base).isSome = true

instance (path base : String) : Decidable (LiesIn path base) := inferInstanceAs (Decidable (_ = true))

theorem components_rooted {ss : List Segment} (hslash : ∀ s ∈ ss, '/' ∉ s) (hne : ∀ s ∈ ss, s ≠ []) :
    components (rooted ss) = ss := by
  have hkept : ss.filter (· ≠ []) = ss := List.filter_eq_self.2 fun s hs => decide_eq_true (hne s hs)
  cases ss with
  | nil => rfl
  | cons s ss =>
      have hsplit : segments (['/'].intercalate (s :: ss)) = s :: ss :=
        List.splitOn_intercalate '/' hslash (List.cons_ne_nil s ss)
      rw [components, toList_rooted, segments_slash_cons, hsplit]
      exact hkept

/-- The components of the normal form are the segments that it is made from. -/
theorem components_normalize {path : String} (h : isAbsolute path.toList = true) :
    components (normalize path) = parts path := by
  have hplain := plain_parts h
  rw [normalize_eq_rooted h, components_rooted (fun s hs => (hplain s hs).no_slash) fun s hs => (hplain s hs).ne_nil]

variable {p q s : String}

theorem liesIn_iff (hp : isAbsolute p.toList = true) (hq : isAbsolute q.toList = true) :
    LiesIn p q ↔ Within p q := by
  rw [LiesIn, Option.isSome_iff_exists]
  constructor
  · rintro ⟨rest, hrest⟩
    obtain ⟨below, hbelow, -⟩ := (stripBase?_eq_some_iff hp hq).1 hrest
    exact ⟨below, hbelow.symm⟩
  · rintro ⟨below, hbelow⟩
    exact ⟨_, (stripBase?_eq_some_iff hp hq).2 ⟨below, hbelow.symm, rfl⟩⟩

/-- The components behind those of the base are left, and lead from the base to the path. -/
theorem stripBase?_of_components (hp : isAbsolute p.toList = true) (hq : isAbsolute q.toList = true)
    {below : List Segment} (h : parts p = parts q ++ below) :
    stripBase? p q = some ("/" ++ slashed below) ∧ join q (slashed below) = normalize p := by
  have hplain : ∀ s ∈ below, Plain s := fun s hs => plain_parts hp s (h ▸ List.mem_append_right _ hs)
  constructor
  · rw [slashed, ← rooted_eq_append]
    exact (stripBase?_eq_some_iff hp hq).2 ⟨below, h, rfl⟩
  · rw [slashed, (join_rest hq hplain).2, ← h, normalize_eq_rooted hp]

/-- Where a relative path is the rest of a normal form, it leads to the components of the form. -/
theorem parts_join (hq : isAbsolute q.toList = true) {rest : String} (h : normalize ("/" ++ rest) = "/" ++ rest) :
    isAbsolute (join q rest).toList = true ∧ parts (join q rest) = parts q ++ parts ("/" ++ rest) := by
  have habsolute : isAbsolute ("/" ++ rest).toList = true := by simp [isAbsolute]
  have hplain := plain_parts habsolute
  have hrest : rest = slashed (parts ("/" ++ rest)) := by
    have htext := normalize_eq_rooted habsolute
    rw [h, rooted_eq_append] at htext
    exact (String.append_right_inj "/").1 htext
  have hjoin : join q rest = rooted (parts q ++ parts ("/" ++ rest)) := by
    conv_lhs => rw [hrest]
    exact (join_rest hq hplain).2
  rw [hjoin]
  refine ⟨isAbsolute_rooted _, parts_rooted fun t ht => ?_⟩
  rcases List.mem_append.1 ht with ht | ht
  · exact plain_parts hq t ht
  · exact hplain t ht

/-- Of a path one base is stripped off after another. -/
theorem stripBase?_bind (hp : isAbsolute p.toList = true) (hq : isAbsolute q.toList = true) {rest : String}
    (h : normalize ("/" ++ rest) = "/" ++ rest) :
    (stripBase? p q).bind (stripBase? · ("/" ++ rest)) = stripBase? p (join q rest) := by
  have habsolute : isAbsolute ("/" ++ rest).toList = true := by simp [isAbsolute]
  obtain ⟨hjoin, hparts⟩ := parts_join hq h
  apply Option.ext
  intro left
  rw [Option.bind_eq_some_iff, stripBase?_eq_some_iff hp hjoin, hparts]
  constructor
  · rintro ⟨middle, hmiddle, hleft⟩
    obtain ⟨hnormal, -⟩ := normalize_of_stripBase?_eq_some hp hq hmiddle
    obtain ⟨below, hbelow, rfl⟩ := (stripBase?_eq_some_iff hp hq).1 hmiddle
    obtain ⟨last, hlast, rfl⟩ := (stripBase?_eq_some_iff hnormal habsolute).1 hleft
    have hplain : ∀ t ∈ below, Plain t := fun t ht => plain_parts hp t (hbelow ▸ List.mem_append_right _ ht)
    rw [parts_rooted hplain] at hlast
    exact ⟨last, by rw [hbelow, hlast, List.append_assoc], rfl⟩
  · rintro ⟨last, hlast, rfl⟩
    rw [List.append_assoc] at hlast
    have hplain : ∀ t ∈ parts ("/" ++ rest) ++ last, Plain t := fun t ht =>
      plain_parts hp t (hlast ▸ List.mem_append_right _ ht)
    refine ⟨_, (stripBase?_eq_some_iff hp hq).2 ⟨_, hlast, rfl⟩, ?_⟩
    exact (stripBase?_eq_some_iff (isAbsolute_rooted _) habsolute).2 ⟨last, parts_rooted hplain, rfl⟩

/-- An absolute path lies in another one just if the components of its normal form begin with those of the other. What
is left then is a slash and the other components with slashes between them, which lead from the one path to the other.
So every path lies in itself, paths that lie in each other have the same normal form, a path lies in everything that
something it lies in lies in, and a normal form that is stripped off what is left of a path might have been joined to
the base before. -/
theorem liesIn_iff_components (hp : isAbsolute p.toList = true) (hq : isAbsolute q.toList = true)
    (hs : isAbsolute s.toList = true) :
    (LiesIn p q ↔ components (normalize q) <+: components (normalize p)) ∧
      (∀ below, components (normalize p) = components (normalize q) ++ below →
        stripBase? p q = some ("/" ++ slashed below) ∧ join q (slashed below) = normalize p) ∧
      LiesIn p p ∧
      (LiesIn p q → LiesIn q s → LiesIn p s) ∧
      (LiesIn p q ∧ LiesIn q p ↔ normalize p = normalize q) ∧
      ∀ rest, normalize ("/" ++ rest) = "/" ++ rest →
        (stripBase? p q).bind (stripBase? · ("/" ++ rest)) = stripBase? p (join q rest) := by
  rw [components_normalize hp, components_normalize hq, liesIn_iff hp hq, liesIn_iff hp hp, liesIn_iff hq hs,
    liesIn_iff hp hs, liesIn_iff hq hp, parts_eq_iff hp hq]
  refine ⟨Iff.rfl, fun below h => stripBase?_of_components hp hq h, List.prefix_refl _, fun h h' => h'.trans h, ?_,
    fun rest h => stripBase?_bind hp hq h⟩
  constructor
  · rintro ⟨h, h'⟩
    exact h'.eq_of_length_le h.length_le
  · intro h
    rw [Within, Within, h]
    exact ⟨List.prefix_refl _, List.prefix_refl _⟩

/-- Spellings with empty segments, dots and steps back. -/
theorem liesIn_iff_components_spelled :
    (LiesIn "/app//build/../dist/x/" "/app/." ↔
        components (normalize "/app/.") <+: components (normalize "/app//build/../dist/x/")) ∧
      stripBase? "/app//build/../dist/x/" "/app/." = some "/dist/x" ∧
      (stripBase? "/app//build/../dist/x/" "/app/.").bind (stripBase? · "/dist") = some "/x" := by
  obtain ⟨hiff, hrest, -, -, -, hbind⟩ :=
    liesIn_iff_components (p := "/app//build/../dist/x/") (q := "/app/.") (s := "/") rfl rfl rfl
  exact ⟨hiff, (hrest [['d', 'i', 's', 't'], ['x']] (by decide)).1, (hbind "dist" (by decide)).trans (by decide)⟩

/-- A name that only begins with another one is a different name. -/
example : ¬LiesIn "/application" "/app" := by decide

end BuildGraph.Path
