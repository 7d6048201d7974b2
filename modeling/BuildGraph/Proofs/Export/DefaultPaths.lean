import BuildGraph.Proofs.Export.Layers

/-!
# Export paths that are left to their default

A stage that says nothing else has its result at its name below `/out`. Names differ, but they are compared as texts,
and a name is followed like any other path: it may go down several times, stay, or go up. So the layers of such stages
lie strictly below `/out` and apart from each other just if their names lead there (`apart_of_default_iff`). Names
that are single plain segments always do. Other names are accepted too. Their layers may then coincide or lie in each
other, which is treated like any other overlap: it is logged, and the later stage wins.
-/

namespace BuildGraph

/-- Neither place is the other one or lies below it. -/
def Path.Apart (a b : List Path.Segment) : Prop := ¬a <+: b ∧ ¬b <+: a

/-- The second place lies strictly below the first. -/
def Path.Below (base place : List Path.Segment) : Prop := base <+: place ∧ base ≠ place

/-- The layers lie below `/out` without touching each other, and everything that is asked about them says so. -/
structure MergedRoot.Apart (m : MergedRoot) : Prop where
  below : ∀ l ∈ m.layers, Path.Below (Path.parts "/out") (Path.parts l.path)
  apart : m.layers.Pairwise fun a b => Path.Apart (Path.parts a.path) (Path.parts b.path)
  quiet : m.overlaps = []
  unshadowed : m.shadowed = []
  owned : ∀ l ∈ m.layers, m.owner l.path = some l.stage

namespace MergedRoot

variable {m : MergedRoot}

/-- No overlap is logged if no two layers touch each other. -/
theorem overlaps_eq_nil (habsolute : ∀ l ∈ m.layers, l.IsAbsolute)
    (h : m.layers.Pairwise fun a b => Path.Apart (Path.parts a.path) (Path.parts b.path)) : m.overlaps = [] := by
  refine List.eq_nil_iff_forall_not_mem.2 fun o ho => ?_
  obtain ⟨before, after, hsplit, hearlier, hoverlaps⟩ := mem_overlapsBehind_iff.1 ho
  rw [hsplit] at h habsolute
  have hmem := List.mem_append_left (o.later :: after) hearlier
  have hlater := List.mem_append_right before (List.mem_cons_self (a := o.later) (l := after))
  obtain ⟨hdown, hup⟩ := (List.pairwise_append.1 h).2.2 _ hearlier _ List.mem_cons_self
  rcases (Layer.overlaps_iff (habsolute _ hmem) (habsolute _ hlater)).1 hoverlaps with hcovers | hcovers
  · exact hup hcovers
  · exact hdown hcovers

/-- No layer is shadowed if no two of them touch each other. -/
theorem shadowed_eq_nil (hnames : (m.layers.map (·.stage)).Nodup) (habsolute : ∀ l ∈ m.layers, l.IsAbsolute)
    (h : m.layers.Pairwise fun a b => Path.Apart (Path.parts a.path) (Path.parts b.path)) : m.shadowed = [] := by
  refine List.filter_eq_nil_iff.2 fun l hl hshadowed => ?_
  obtain ⟨before, after, hsplit⟩ := List.append_of_mem hl
  obtain ⟨l', hl', hcovers⟩ := (isShadowed_iff hnames habsolute hsplit).1 hshadowed
  rw [hsplit] at h
  exact ((List.pairwise_cons.1 (List.pairwise_append.1 h).2.1).1 l' hl').2 hcovers

/-- Whether the layers are apart is decided by their paths. -/
theorem apart_iff (hnames : (m.layers.map (·.stage)).Nodup) (habsolute : ∀ l ∈ m.layers, l.IsAbsolute) :
    m.Apart ↔ (∀ l ∈ m.layers, Path.Below (Path.parts "/out") (Path.parts l.path)) ∧
      m.layers.Pairwise fun a b => Path.Apart (Path.parts a.path) (Path.parts b.path) := by
  refine ⟨fun h => ⟨h.below, h.apart⟩, ?_⟩
  rintro ⟨hbelow, hapart⟩
  have hshadowed := shadowed_eq_nil hnames habsolute hapart
  refine ⟨hbelow, hapart, overlaps_eq_nil habsolute hapart, hshadowed, fun l hl => ?_⟩
  by_contra howner
  exact List.filter_eq_nil_iff.1 hshadowed l hl (bne_iff_ne.2 howner)

end MergedRoot

/-- Where the default path of a stage leads. -/
theorem parts_layer_of_default {s : StageConfig} (h : s.exportPath? = none) :
    s.layer.IsAbsolute ∧ Path.parts s.layer.path = Path.follow (Path.parts "/out") s.name := by
  have hpath : s.exportPath = "/out" ++ "/" ++ s.name := by
    rw [StageConfig.exportPath, h]
    rfl
  have habsolute : Path.isAbsolute s.exportPath.toList = true := by
    rw [hpath]
    simp [Path.isAbsolute]
  refine ⟨(Path.normalize_normalize habsolute).1, ?_⟩
  rw [StageConfig.layer, Path.parts_normalize habsolute, hpath, Path.parts_append rfl]

/-- A plain name leads to a place right below. -/
theorem below_of_plain {name : String} (h : Path.Plain name.toList) (base : List Path.Segment) :
    Path.Below base (Path.follow base name) := by
  rw [Path.follow_plain h]
  refine ⟨List.prefix_append _ _, fun heq => ?_⟩
  simpa using congrArg List.length heq

/-- Different plain names lead to places that are apart. -/
theorem apart_of_plain {a b : String} (ha : Path.Plain a.toList) (hb : Path.Plain b.toList) (hne : a ≠ b)
    (base : List Path.Segment) : Path.Apart (Path.follow base a) (Path.follow base b) := by
  have hnot : ∀ {a b : String}, a ≠ b → ¬base ++ [a.toList] <+: base ++ [b.toList] := by
    intro a b hne h
    have hsame : [a.toList] = [b.toList] := ((List.prefix_append_right_inj base).1 h).eq_of_length rfl
    exact hne (String.toList_inj.1 (List.singleton_inj.1 hsame))
  rw [Path.follow_plain ha, Path.follow_plain hb]
  exact ⟨hnot hne, hnot hne.symm⟩

/-- The names of the stages lead to places strictly below `/out`, apart from each other. -/
structure PipelineConfig.NamesApart (c : PipelineConfig) : Prop where
  below : ∀ s ∈ c.stages, Path.Below (Path.parts "/out") (Path.follow (Path.parts "/out") s.name)
  apart : c.stages.Pairwise fun s t =>
    Path.Apart (Path.follow (Path.parts "/out") s.name) (Path.follow (Path.parts "/out") t.name)

theorem PipelineConfig.namesApart_of_plain {c : PipelineConfig} (hnames : (c.stages.map (·.name)).Nodup)
    (h : ∀ s ∈ c.stages, Path.Plain s.name.toList) : c.NamesApart where
  below := fun s hs => below_of_plain (h s hs) _
  apart := (List.pairwise_map.1 hnames).imp_of_mem fun hs ht hne => apart_of_plain (h _ hs) (h _ ht) hne _

/-- Stages with default export paths have their layers strictly below `/out` and apart from each other, with no overlap
logged, none shadowed and each its own, just if their names lead to such places. Names that are single plain segments
do. -/
theorem apart_of_default_iff {c : PipelineConfig} (hdefault : ∀ s ∈ c.stages, s.exportPath? = none) {g g' : Graph}
    (hg : g.Reachable) {p : Pipeline} (h : (Build.assemble c).run g = (.ok p, g')) :
    ∃ m g'', (Build.mergeStages p).run g' = (.ok m, g'') ∧ m.layers = c.stages.map StageConfig.layer ∧
      (m.Apart ↔ c.NamesApart) ∧ ((∀ s ∈ c.stages, Path.Plain s.name.toList) → c.NamesApart) := by
  obtain ⟨m, g'', hm, hlayers⟩ := Build.exists_layers_of_assemble hg.sound h
  have hnames := (Build.names_of_assemble h).1.names
  have hstages : (m.layers.map (·.stage)).Nodup := by
    rw [hlayers, List.map_map]
    exact hnames
  have habsolute : ∀ l ∈ m.layers, l.IsAbsolute := by
    rw [hlayers, List.forall_mem_map]
    exact fun s hs => (parts_layer_of_default (hdefault s hs)).1
  have hparts : ∀ {s}, s ∈ c.stages → Path.parts s.layer.path = Path.follow (Path.parts "/out") s.name :=
    fun hs => (parts_layer_of_default (hdefault _ hs)).2
  have hbelow : (∀ l ∈ m.layers, Path.Below (Path.parts "/out") (Path.parts l.path)) ↔
      ∀ s ∈ c.stages, Path.Below (Path.parts "/out") (Path.follow (Path.parts "/out") s.name) := by
    rw [hlayers, List.forall_mem_map]
    exact forall₂_congr fun s hs => by rw [hparts hs]
  have hapart : (m.layers.Pairwise fun a b => Path.Apart (Path.parts a.path) (Path.parts b.path)) ↔
      c.stages.Pairwise fun s t =>
        Path.Apart (Path.follow (Path.parts "/out") s.name) (Path.follow (Path.parts "/out") t.name) := by
    rw [hlayers, List.pairwise_map]
    exact List.Pairwise.iff_of_mem fun hs ht => by rw [hparts hs, hparts ht]
  refine ⟨m, g'', hm, hlayers, ?_, PipelineConfig.namesApart_of_plain hnames⟩
  rw [MergedRoot.apart_iff hstages habsolute, hbelow, hapart]
  exact ⟨fun h => ⟨h.1, h.2⟩, fun h => ⟨h.below, h.apart⟩⟩

theorem apart_of_default_plain :
    ∃ p g m g', (Build.assemble (layeredConfig [("build", none), ("build.log", none)])).run (.empty ⟨0⟩) = (.ok p, g) ∧
      (Build.mergeStages p).run g = (.ok m, g') ∧ m.Apart := by
  obtain ⟨p, g, hp⟩ : ∃ p g,
      (Build.assemble (layeredConfig [("build", none), ("build.log", none)])).run (.empty ⟨0⟩) = (.ok p, g) :=
    Build.exists_run_eq_ok (by decide +kernel)
  obtain ⟨m, g', hm, -, hiff, hplain⟩ := apart_of_default_iff (by decide) (.empty ⟨0⟩) hp
  refine ⟨p, g, m, g', hp, hm, hiff.2 (hplain fun s hs => ?_)⟩
  rcases List.mem_pair.1 hs with rfl | rfl
  · exact ⟨by decide, by decide, by decide, by decide⟩
  · exact ⟨by decide, by decide, by decide, by decide⟩

/-- The name of the first stage leads below that of the second one, so an overlap is logged, and what the first has
built belongs to the second. -/
theorem nested_names_touch :
    ∃ p g m g', (layeredConfig [("build/wheel", none), ("build", none)]).validate = .ok () ∧
      (∀ s ∈ (layeredConfig [("build/wheel", none), ("build", none)]).stages, s.exportPath? = none) ∧
      (Build.assemble (layeredConfig [("build/wheel", none), ("build", none)])).run (.empty ⟨0⟩) = (.ok p, g) ∧
      (Build.mergeStages p).run g = (.ok m, g') ∧
      m.layers = [⟨"/out/build/wheel", "build/wheel"⟩, ⟨"/out/build", "build"⟩] ∧
      m.overlaps = [⟨⟨"/out/build/wheel", "build/wheel"⟩, ⟨"/out/build", "build"⟩⟩] ∧
      m.shadowed = [⟨"/out/build/wheel", "build/wheel"⟩] ∧ m.owner "/out/build/wheel" = some "build" := by
  obtain ⟨p, g, hp⟩ : ∃ p g,
      (Build.assemble (layeredConfig [("build/wheel", none), ("build", none)])).run (.empty ⟨0⟩) = (.ok p, g) :=
    Build.exists_run_eq_ok (by decide +kernel)
  obtain ⟨⟨state, layers⟩, g', hm, hlayers⟩ := Build.exists_layers_of_assemble (Graph.sound_empty _) hp
  obtain rfl : layers = [⟨"/out/build/wheel", "build/wheel"⟩, ⟨"/out/build", "build"⟩] :=
    hlayers.trans (by decide +kernel)
  have hnoticed : (⟨.scratch, [⟨"/out/build/wheel", "build/wheel"⟩, ⟨"/out/build", "build"⟩]⟩ : MergedRoot).overlaps =
      [⟨⟨"/out/build/wheel", "build/wheel"⟩, ⟨"/out/build", "build"⟩⟩] := by decide +kernel
  have hlisted : (⟨.scratch, [⟨"/out/build/wheel", "build/wheel"⟩, ⟨"/out/build", "build"⟩]⟩ : MergedRoot).shadowed =
      [⟨"/out/build/wheel", "build/wheel"⟩] := by decide +kernel
  have howner : (⟨.scratch, [⟨"/out/build/wheel", "build/wheel"⟩, ⟨"/out/build", "build"⟩]⟩ : MergedRoot).owner
      "/out/build/wheel" = some "build" := by decide +kernel
  exact ⟨p, g, _, g', by decide +kernel, by decide, hp, hm, rfl, hnoticed, hlisted, howner⟩

end BuildGraph
