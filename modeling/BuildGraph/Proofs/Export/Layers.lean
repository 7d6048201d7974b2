import BuildGraph.Proofs.Export.Provenance
import BuildGraph.Proofs.Path.Containment

/-!
# Layers that cover each other

Where a layer lies is a list of segments, and a layer covers another one if its segments are those that the other
begins with. A path has the stage of the last layer that covers it. So a layer is shadowed if a later one covers it
(`MergedRoot.isShadowed_iff`), while an overlap is noticed if one of two layers covers the other, whichever it is
(`MergedRoot.exists_overlap_iff`). The two tests differ on a layer that only has later layers strictly below it:
part of it belongs to another stage, but it is not listed as shadowed (`mem_shadowed_iff`).
-/

namespace BuildGraph

namespace Layer

/-- The other layer lies where the layer does, or below. -/
def Covers (l other : Layer) : Prop := Path.parts l.path <+: Path.parts other.path

instance (l other : Layer) : Decidable (l.Covers other) := inferInstanceAs (Decidable (_ <+: _))

def IsAbsolute (l : Layer) : Prop := Path.isAbsolute l.path.toList = true

theorem isAbsolute_ofStage {s : Stage} (h : Path.isAbsolute s.exportPath.toList = true) : (ofStage s).IsAbsolute :=
  (Path.normalize_normalize h).1

/-- A layer holds a path that begins with its segments. -/
theorem holds_iff {l : Layer} (hl : l.IsAbsolute) {path : String} (hpath : Path.isAbsolute path.toList = true) :
    l.holds path = true ↔ Path.Within path l.path := Path.liesIn_iff hpath hl

theorem holds_path_iff {l other : Layer} (hl : l.IsAbsolute) (hother : other.IsAbsolute) :
    l.holds other.path = true ↔ l.Covers other := holds_iff hl hother

theorem overlaps_iff {a b : Layer} (ha : a.IsAbsolute) (hb : b.IsAbsolute) :
    a.overlaps b = true ↔ b.Covers a ∨ a.Covers b := by
  rw [overlaps, Bool.or_eq_true, holds_path_iff hb ha, holds_path_iff ha hb]

end Layer

/-- What is noticed are the pairs of overlapping layers, the earlier one in front. -/
theorem mem_overlapsBehind_iff {earlier ls : List Layer} {o : Overlap} :
    o ∈ overlapsBehind earlier ls ↔
      ∃ before after, ls = before ++ o.later :: after ∧ o.earlier ∈ earlier ++ before ∧
        o.earlier.overlaps o.later = true := by
  induction ls generalizing earlier with
  | nil => simp [overlapsBehind]
  | cons l ls ih =>
      rw [overlapsBehind, List.mem_append, ih]
      constructor
      · rintro (ho | ⟨before, after, rfl, hmem, hoverlaps⟩)
        · obtain ⟨a, ha, rfl⟩ := List.mem_map.1 ho
          obtain ⟨ha, hoverlaps⟩ := List.mem_filter.1 ha
          exact ⟨[], ls, rfl, by rwa [List.append_nil], hoverlaps⟩
        · refine ⟨l :: before, after, rfl, ?_, hoverlaps⟩
          rwa [List.append_assoc] at hmem
      · rintro ⟨before, after, heq, hmem, hoverlaps⟩
        cases before with
        | nil =>
            obtain ⟨rfl, rfl⟩ := List.cons.inj heq
            rw [List.append_nil] at hmem
            exact .inl (List.mem_map.2 ⟨o.earlier, List.mem_filter.2 ⟨hmem, hoverlaps⟩, rfl⟩)
        | cons first before =>
            obtain ⟨rfl, rfl⟩ := List.cons.inj heq
            refine .inr ⟨before, after, rfl, ?_, hoverlaps⟩
            rwa [List.append_assoc]

namespace MergedRoot

variable {m : MergedRoot} {before after : List Layer} {l : Layer}

/-- A path that a layer holds comes from the last layer behind it that holds it too, or else from the layer. -/
theorem owner_eq (hm : m.layers = before ++ l :: after) {path : String} (hl : l.holds path = true) :
    m.owner path = some ((after.reverse.find? (·.holds path)).getD l).stage := by
  rw [owner, hm, List.reverse_append, List.reverse_cons, List.append_assoc, List.find?_append]
  cases after.reverse.find? (·.holds path) with
  | none => simp [hl]
  | some later => rfl

theorem absolute_of_split (habsolute : ∀ l ∈ m.layers, l.IsAbsolute) (hm : m.layers = before ++ l :: after) :
    l.IsAbsolute ∧ ∀ l' ∈ after, l'.IsAbsolute := by
  rw [hm, List.forall_mem_append, List.forall_mem_cons] at habsolute
  exact habsolute.2

/-- With different names a layer keeps its own path unless a later one covers it. -/
theorem isShadowed_iff (hnames : (m.layers.map (·.stage)).Nodup) (habsolute : ∀ l ∈ m.layers, l.IsAbsolute)
    (hm : m.layers = before ++ l :: after) : m.isShadowed l = true ↔ ∃ l' ∈ after, l'.Covers l := by
  obtain ⟨hself, hafter⟩ := absolute_of_split habsolute hm
  rw [hm] at hnames
  have hother : ∀ l' ∈ after, l'.stage ≠ l.stage := by
    intro l' hl' hsame
    rw [List.map_append, List.map_cons] at hnames
    have hnew := (List.nodup_cons.1 (List.nodup_append.1 hnames).2.1).1
    exact hnew (hsame ▸ List.mem_map_of_mem hl')
  rw [isShadowed, owner_eq hm ((Layer.holds_path_iff hself hself).2 (List.prefix_refl _)), bne_iff_ne]
  cases hfind : after.reverse.find? (·.holds l.path) with
  | none =>
      refine iff_of_false (fun h => h rfl) ?_
      rintro ⟨l', hl', hcovers⟩
      have hholds := (Layer.holds_path_iff (hafter l' hl') hself).2 hcovers
      exact List.find?_eq_none.1 hfind l' (List.mem_reverse.2 hl') hholds
  | some later =>
      have hlater := List.mem_reverse.1 (List.mem_of_find?_eq_some hfind)
      refine iff_of_true (fun h => hother later hlater (Option.some.inj h)) ⟨later, hlater, ?_⟩
      exact (Layer.holds_path_iff (hafter later hlater) hself).1 (List.find?_some hfind :)

/-- A layer is the earlier one of an overlap if it covers a later one or a later one covers it. -/
theorem exists_overlap_iff (hnodup : m.layers.Nodup) (habsolute : ∀ l ∈ m.layers, l.IsAbsolute)
    (hm : m.layers = before ++ l :: after) :
    (∃ o ∈ m.overlaps, o.earlier = l) ↔ ∃ l' ∈ after, l'.Covers l ∨ l.Covers l' := by
  obtain ⟨hself, hafter⟩ := absolute_of_split habsolute hm
  rw [hm] at hnodup
  rw [overlaps, hm]
  constructor
  · rintro ⟨o, ho, rfl⟩
    obtain ⟨front, rest, hsplit, hfront, hoverlaps⟩ := mem_overlapsBehind_iff.1 ho
    obtain ⟨first, between, rfl⟩ := List.append_of_mem hfront
    -- the layer occurs once, so both ways to find it are the same
    have hnotBefore : o.earlier ∉ before := fun hmem =>
      (List.nodup_append.1 hnodup).2.2 _ hmem _ List.mem_cons_self rfl
    have hnotAfter : o.earlier ∉ after := (List.nodup_cons.1 (List.nodup_append.1 hnodup).2.1).1
    rw [List.append_assoc, List.cons_append] at hsplit
    obtain ⟨-, -, rfl⟩ := (List.append_cons_inj_of_notMem hnotBefore hnotAfter).1 hsplit
    have hlater : o.later ∈ between ++ o.later :: rest := List.mem_append_right _ List.mem_cons_self
    exact ⟨o.later, hlater, (Layer.overlaps_iff hself (hafter _ hlater)).1 hoverlaps⟩
  · rintro ⟨l', hl', hcovers⟩
    obtain ⟨between, rest, rfl⟩ := List.append_of_mem hl'
    refine ⟨⟨l, l'⟩, mem_overlapsBehind_iff.2 ⟨before ++ l :: between, rest, ?_, ?_, ?_⟩, rfl⟩
    · simp
    · simp
    · exact (Layer.overlaps_iff hself (hafter l' hl')).2 hcovers

end MergedRoot

/-- A layer is listed as shadowed if the path of a later one is the same or lies above. It is named as the earlier one
of an overlap if the path of a later one is the same or lies above or below. So the two agree on a layer unless later
ones lie below it, and none at the same path or above. -/
theorem mem_shadowed_iff {p : Pipeline} {g g' : Graph} {m : MergedRoot} (hnames : (p.stages.map (·.name)).Nodup)
    (hpaths : ∀ s ∈ p.stages, Path.isAbsolute s.exportPath.toList = true)
    (h : (Build.mergeStages p).run g = (.ok m, g')) {before after : List Layer} {l : Layer}
    (hl : m.layers = before ++ l :: after) :
    (l ∈ m.shadowed ↔ ∃ l' ∈ after, l'.Covers l) ∧
      ((∃ o ∈ m.overlaps, o.earlier = l) ↔ ∃ l' ∈ after, l'.Covers l ∨ l.Covers l') ∧
      ((l ∈ m.shadowed ↔ ∃ o ∈ m.overlaps, o.earlier = l) ↔
        ((∃ l' ∈ after, l.Covers l') → ∃ l' ∈ after, l'.Covers l)) := by
  have hlayers := Build.layers_of_mergeStages h
  have hnames : (m.layers.map (·.stage)).Nodup := by
    rw [hlayers, List.map_map]
    exact hnames
  have habsolute : ∀ l ∈ m.layers, l.IsAbsolute := by
    rw [hlayers, List.forall_mem_map]
    exact fun s hs => Layer.isAbsolute_ofStage (hpaths s hs)
  have hshadowed : l ∈ m.shadowed ↔ ∃ l' ∈ after, l'.Covers l := by
    rw [← MergedRoot.isShadowed_iff hnames habsolute hl, MergedRoot.shadowed, List.mem_filter]
    exact and_iff_right (hl ▸ List.mem_append_right _ List.mem_cons_self)
  have hoverlap := MergedRoot.exists_overlap_iff hnames.of_map habsolute hl
  refine ⟨hshadowed, hoverlap, ?_⟩
  rw [hshadowed, hoverlap]
  constructor
  · rintro hagree ⟨l', hl', hcovers⟩
    exact hagree.2 ⟨l', hl', .inr hcovers⟩
  · refine fun hcovered => ⟨fun ⟨l', hl', hcovers⟩ => ⟨l', hl', .inl hcovers⟩, ?_⟩
    rintro ⟨l', hl', hcovers | hcovers⟩
    · exact ⟨l', hl', hcovers⟩
    · exact hcovered ⟨l', hl', hcovers⟩

/-- The stages of an assembled config have different names and absolute export paths. -/
theorem Build.distinct_of_assemble {c : PipelineConfig} {g g' : Graph} {p : Pipeline}
    (h : (assemble c).run g = (.ok p, g')) :
    (p.stages.map (·.name)).Nodup ∧ ∀ s ∈ p.stages, Path.isAbsolute s.exportPath.toList = true := by
  obtain ⟨hvalid, hstages⟩ := names_of_assemble h
  constructor
  · have hnames := List.forall₂_map_left_iff.2 (List.forall₂_map_right_iff.2 (hstages.imp fun _ _ h => h.1.symm))
    rw [List.forall₂_eq_eq_eq] at hnames
    exact hnames ▸ hvalid.names
  · intro stage hstage
    obtain ⟨s, hs, -, hpath⟩ := exists_of_mem_right hstages hstage
    exact hpath ▸ (hvalid.each s hs).exportPath

/-- A stage that has an earlier one around it and a later one in its place. -/
def nestedConfig : PipelineConfig :=
  layeredConfig [("all", some "/out"), ("build", none), ("again", some "/out/build/")]

/-- The second stage is shadowed by the third, and an overlap says so. -/
theorem mem_shadowed_nested :
    ∃ p g m g', (Build.assemble nestedConfig).run (.empty ⟨0⟩) = (.ok p, g) ∧
      (Build.mergeStages p).run g = (.ok m, g') ∧ ⟨"/out/build", "build"⟩ ∈ m.shadowed ∧
      ∃ o ∈ m.overlaps, o.earlier = ⟨"/out/build", "build"⟩ := by
  obtain ⟨p, g, hp⟩ : ∃ p g, (Build.assemble nestedConfig).run (.empty ⟨0⟩) = (.ok p, g) :=
    Build.exists_run_eq_ok (by decide +kernel)
  obtain ⟨m, g', hm, hlayers⟩ := Build.exists_layers_of_assemble (Graph.sound_empty _) hp
  obtain ⟨hnames, hpaths⟩ := Build.distinct_of_assemble hp
  have hsplit : m.layers = [⟨"/out", "all"⟩] ++ ⟨"/out/build", "build"⟩ :: [⟨"/out/build", "again"⟩] := by
    rw [hlayers]
    decide +kernel
  obtain ⟨hshadowed, hoverlap, -⟩ := mem_shadowed_iff hnames hpaths hm hsplit
  have hcovers : (⟨"/out/build", "again"⟩ : Layer).Covers ⟨"/out/build", "build"⟩ := List.prefix_refl _
  exact ⟨p, g, m, g', hp, hm, hshadowed.2 ⟨_, List.mem_singleton_self _, hcovers⟩,
    hoverlap.2 ⟨_, List.mem_singleton_self _, .inl hcovers⟩⟩

/-- What the first stage has at the path of the second comes from the second. An overlap names the first as the earlier
one, but it is not listed as shadowed. -/
theorem covered_below_not_shadowed :
    ∃ p g m g', (Build.assemble (layeredConfig [("all", some "/out"), ("build", none)])).run (.empty ⟨0⟩) = (.ok p, g) ∧
      (Build.mergeStages p).run g = (.ok m, g') ∧ (p.stages.map (·.name)).Nodup ∧
      (∀ s ∈ p.stages, Path.isAbsolute s.exportPath.toList = true) ∧
      m.layers = [⟨"/out", "all"⟩, ⟨"/out/build", "build"⟩] ∧
      m.overlaps = [⟨⟨"/out", "all"⟩, ⟨"/out/build", "build"⟩⟩] ∧ m.shadowed = [] := by
  obtain ⟨p, g, hp⟩ :
      ∃ p g, (Build.assemble (layeredConfig [("all", some "/out"), ("build", none)])).run (.empty ⟨0⟩) = (.ok p, g) :=
    Build.exists_run_eq_ok (by decide +kernel)
  obtain ⟨⟨state, layers⟩, g', hm, hlayers⟩ := Build.exists_layers_of_assemble (Graph.sound_empty _) hp
  obtain ⟨hnames, hpaths⟩ := Build.distinct_of_assemble hp
  obtain rfl : layers = [⟨"/out", "all"⟩, ⟨"/out/build", "build"⟩] := hlayers.trans (by decide +kernel)
  -- neither list depends on what has been built
  have hnoticed : (⟨.scratch, [⟨"/out", "all"⟩, ⟨"/out/build", "build"⟩]⟩ : MergedRoot).overlaps =
      [⟨⟨"/out", "all"⟩, ⟨"/out/build", "build"⟩⟩] := by decide +kernel
  have hlisted : (⟨.scratch, [⟨"/out", "all"⟩, ⟨"/out/build", "build"⟩]⟩ : MergedRoot).shadowed = [] := by
    decide +kernel
  exact ⟨p, g, _, g', hp, hm, hnames, hpaths, rfl, hnoticed, hlisted⟩

end BuildGraph
