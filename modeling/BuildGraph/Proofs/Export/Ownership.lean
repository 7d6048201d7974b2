import BuildGraph.Proofs.Export.Layers
import Mathlib.Data.List.Induction

/-!
# The stage that a path belongs to

Layers lie over each other, so whoever asks something of a merged tree is answered by the last layer that it concerns
(`LastAt`). The owner of a path is looked up from the last layer back to the first, and the map of all export paths is
made from the first layer to the last, each instead of an earlier one: in both ways the last layer is found
(`MergedRoot.owner_eq_some_iff`, `MergedRoot.get?_provenance_eq_some_iff`). What is asked differs. A layer that contains
a path contains everything below it, so from a directory down the owner only changes to later layers. At the very path
of a layer the two answers differ only where a later layer lies strictly above (`later_layer_owns`).
-/

namespace BuildGraph

section Last

variable {α β : Type} {p q : α → Prop} {xs : List α} {i j : Nat} {x y a : α}

/-- The last element of a list with a property, and its index. -/
structure LastAt (p : α → Prop) (xs : List α) (i : Nat) (x : α) : Prop where
  here : xs[i]? = some x
  holds : p x
  last : ∀ j y, i < j → xs[j]? = some y → ¬p y

theorem LastAt.mem (h : LastAt p xs i x) : x ∈ xs := List.mem_of_getElem? h.here

theorem LastAt.congr (h : LastAt p xs i x) (hpq : ∀ y ∈ xs, p y ↔ q y) : LastAt q xs i x where
  here := h.here
  holds := (hpq x h.mem).1 h.holds
  last := fun j y hij hy hq => h.last j y hij hy ((hpq y (List.mem_of_getElem? hy)).2 hq)

theorem lastAt_congr (hpq : ∀ y ∈ xs, p y ↔ q y) : LastAt p xs i x ↔ LastAt q xs i x :=
  ⟨fun h => h.congr hpq, fun h => h.congr fun y hy => (hpq y hy).symm⟩

/-- One more element is the last one with the property if it has it, and changes nothing otherwise. -/
theorem lastAt_concat : LastAt p (xs ++ [a]) i x ↔ p a ∧ i = xs.length ∧ x = a ∨ ¬p a ∧ LastAt p xs i x := by
  have hend : (xs ++ [a])[xs.length]? = some a := List.getElem?_concat_length
  have hfront : ∀ {j}, j < xs.length → (xs ++ [a])[j]? = xs[j]? := List.getElem?_append_left
  constructor
  · intro h
    by_cases hi : i < xs.length
    · refine .inr ⟨h.last _ a hi hend, (hfront hi).symm.trans h.here, h.holds, fun j y hij hy => ?_⟩
      exact h.last j y hij ((hfront (List.getElem?_eq_some_iff.1 hy).1).trans hy)
    · have hlength := (List.getElem?_eq_some_iff.1 h.here).1
      rw [List.length_append, List.length_singleton] at hlength
      obtain rfl : i = xs.length := by omega
      obtain rfl := Option.some.inj (h.here.symm.trans hend)
      exact .inl ⟨h.holds, rfl, rfl⟩
  · rintro (⟨ha, rfl, rfl⟩ | ⟨ha, h⟩)
    · refine ⟨hend, ha, fun j y hij hy => ?_⟩
      have hlength := (List.getElem?_eq_some_iff.1 hy).1
      rw [List.length_append, List.length_singleton] at hlength
      omega
    · refine ⟨(hfront (List.getElem?_eq_some_iff.1 h.here).1).trans h.here, h.holds, fun j y hij hy => ?_⟩
      by_cases hj : j < xs.length
      · exact h.last j y hij ((hfront hj).symm.trans hy)
      · have hlength := (List.getElem?_eq_some_iff.1 hy).1
        rw [List.length_append, List.length_singleton] at hlength
        obtain rfl : j = xs.length := by omega
        exact Option.some.inj (hy.symm.trans hend) ▸ ha

theorem exists_lastAt_iff : (∃ i x, LastAt p xs i x) ↔ ∃ x ∈ xs, p x := by
  constructor
  · rintro ⟨i, x, h⟩
    exact ⟨x, h.mem, h.holds⟩
  · intro h
    induction xs using List.reverseRecOn with
    | nil => simp at h
    | append_singleton xs a ih =>
        by_cases ha : p a
        · exact ⟨xs.length, a, lastAt_concat.2 (.inl ⟨ha, rfl, rfl⟩)⟩
        · obtain ⟨i, x, hlast⟩ := ih (by simpa [or_and_right, exists_or, ha] using h)
          exact ⟨i, x, lastAt_concat.2 (.inr ⟨ha, hlast⟩)⟩

/-- What more elements have, the last one has no earlier. -/
theorem LastAt.exists_of_imp (h : LastAt p xs i x) (hpq : ∀ y, p y → q y) :
    ∃ j y, LastAt q xs j y ∧ i ≤ j := by
  obtain ⟨j, y, hlast⟩ := exists_lastAt_iff.2 ⟨x, h.mem, hpq x h.holds⟩
  refine ⟨j, y, hlast, Nat.le_of_not_lt fun hji => ?_⟩
  exact hlast.last i x hji h.here (hpq x h.holds)

/-- A search from the end finds the last element. -/
theorem find?_reverse_eq_some_iff {f : α → Bool} :
    xs.reverse.find? f = some x ↔ ∃ i, LastAt (f · = true) xs i x := by
  induction xs using List.reverseRecOn with
  | nil =>
      refine iff_of_false nofun ?_
      rintro ⟨i, h⟩
      exact List.not_mem_nil h.mem
  | append_singleton xs a ih =>
      rw [List.reverse_concat, List.find?_cons]
      cases ha : f a with
      | false => simp [lastAt_concat, ha, ih]
      | true =>
          constructor
          · rintro ⟨⟩
            exact ⟨xs.length, lastAt_concat.2 (.inl ⟨ha, rfl, rfl⟩)⟩
          · rintro ⟨i, h⟩
            rcases lastAt_concat.1 h with ⟨-, -, rfl⟩ | ⟨hnot, -⟩
            · rfl
            · exact absurd ha hnot

theorem map_find?_reverse_eq_some_iff {f : α → Bool} {g : α → β} {b : β} :
    (xs.reverse.find? f).map g = some b ↔ ∃ i x, LastAt (f · = true) xs i x ∧ g x = b := by
  simp only [Option.map_eq_some_iff, find?_reverse_eq_some_iff]
  tauto

end Last

namespace MergedRoot

variable {m : MergedRoot} {target key stage : String}

/-- The owner of a path is the stage of the last layer that contains it. -/
theorem owner_eq_some_iff (habsolute : ∀ l ∈ m.layers, l.IsAbsolute)
    (htarget : Path.isAbsolute target.toList = true) :
    m.owner target = some stage ↔ ∃ i l, LastAt (Path.Within target ·.path) m.layers i l ∧ l.stage = stage := by
  rw [owner, map_find?_reverse_eq_some_iff]
  simp only [lastAt_congr fun l hl => Layer.holds_iff (habsolute l hl) htarget]

/-- An export path is mapped to the last layer that lies there. -/
theorem get?_provenance_eq_some_iff :
    m.provenance.get? key = some stage ↔ ∃ i l, LastAt (·.path = key) m.layers i l ∧ l.stage = stage := by
  rw [provenance, StringMap.get?_ofList, ← List.map_reverse, List.find?_map, Option.map_map]
  simp only [Function.comp_def, map_find?_reverse_eq_some_iff, beq_iff_eq]

theorem mem_keys_provenance_iff : key ∈ m.provenance.keys ↔ ∃ l ∈ m.layers, l.path = key := by
  rw [StringMap.mem_keys_iff, Option.ne_none_iff_exists', ← exists_lastAt_iff]
  simp only [get?_provenance_eq_some_iff]
  tauto

theorem owner_eq_none_iff (habsolute : ∀ l ∈ m.layers, l.IsAbsolute)
    (htarget : Path.isAbsolute target.toList = true) :
    m.owner target = none ↔ ∀ l ∈ m.layers, ¬Path.Within target l.path := by
  have howned : m.owner target ≠ none ↔ ∃ i l, LastAt (Path.Within target ·.path) m.layers i l := by
    rw [Option.ne_none_iff_exists']
    simp only [owner_eq_some_iff habsolute htarget]
    tauto
  rw [← not_iff_not, ← ne_eq, howned, exists_lastAt_iff]
  push Not
  rfl

/-- What a path lies in, everything below it lies in. -/
theorem exists_lastAt_below {below : String} (hbelow : Path.Within below target) {i : Nat} {l : Layer}
    (h : LastAt (Path.Within target ·.path) m.layers i l) :
    ∃ j l', LastAt (Path.Within below ·.path) m.layers j l' ∧ i ≤ j :=
  h.exists_of_imp fun _ hwithin => hwithin.trans hbelow

/-- At the path of a layer a later one is the owner only if it lies strictly above. -/
theorem owner_eq_provenance_or (habsolute : ∀ l ∈ m.layers, l.IsAbsolute) {i : Nat} {l : Layer}
    (h : LastAt (·.path = l.path) m.layers i l) :
    m.owner l.path = m.provenance.get? l.path ∨
      ∃ j l', i < j ∧ m.layers[j]? = some l' ∧ l'.stage ≠ l.stage ∧ Path.Within l.path l'.path ∧ l'.path ≠ l.path := by
  have hmapped : m.provenance.get? l.path = some l.stage := get?_provenance_eq_some_iff.2 ⟨i, l, h, rfl⟩
  obtain ⟨j, l', hlast, hij⟩ := h.exists_of_imp (q := (Path.Within l.path ·.path)) fun y hy => by
    rw [hy]
    exact List.prefix_refl _
  have howner : m.owner l.path = some l'.stage :=
    (owner_eq_some_iff habsolute (habsolute l h.mem)).2 ⟨j, l', hlast, rfl⟩
  by_cases hstage : l'.stage = l.stage
  · exact .inl (by rw [howner, hmapped, hstage])
  · have hlater : i < j := by
      refine Nat.lt_of_le_of_ne hij fun hsame => hstage ?_
      subst hsame
      exact congrArg Layer.stage (Option.some.inj (hlast.here.symm.trans h.here))
    exact .inr ⟨j, l', hlater, hlast.here, hstage, hlast.holds, h.last j l' hlater hlast.here⟩

end MergedRoot

/-- The owner of a path is the stage of the last layer that contains it, and there is none if no layer does. A path
below another one belongs to the same layer or to a later one. The export paths are mapped to the stages of the last
layers that lie there. The owner of an export path is the stage that it is mapped to, unless a layer behind that one,
of a stage with another name, lies strictly above. -/
theorem later_layer_owns {p : Pipeline} {g g' : Graph} {m : MergedRoot}
    (hpaths : ∀ s ∈ p.stages, Path.isAbsolute s.exportPath.toList = true)
    (h : (Build.mergeStages p).run g = (.ok m, g')) :
    m.layers = p.stages.map .ofStage ∧
      (∀ target, Path.isAbsolute target.toList = true →
        (∀ stage, m.owner target = some stage ↔
          ∃ i l, LastAt (Path.Within target ·.path) m.layers i l ∧ l.stage = stage) ∧
        (m.owner target = none ↔ ∀ l ∈ m.layers, ¬Path.Within target l.path) ∧
        ∀ below, Path.isAbsolute below.toList = true → Path.Within below target →
          ∀ i l, LastAt (Path.Within target ·.path) m.layers i l →
            ∃ j l', LastAt (Path.Within below ·.path) m.layers j l' ∧ i ≤ j) ∧
      (∀ key, key ∈ m.provenance.keys ↔ ∃ s ∈ p.stages, Path.normalize s.exportPath = key) ∧
      (∀ key stage, m.provenance.get? key = some stage ↔
        ∃ i l, LastAt (·.path = key) m.layers i l ∧ l.stage = stage) ∧
      ∀ i l, LastAt (·.path = l.path) m.layers i l →
        m.owner l.path = m.provenance.get? l.path ∨
          ∃ j l', i < j ∧ m.layers[j]? = some l' ∧ l'.stage ≠ l.stage ∧ Path.Within l.path l'.path ∧
            l'.path ≠ l.path := by
  have hlayers := Build.layers_of_mergeStages h
  have habsolute : ∀ l ∈ m.layers, l.IsAbsolute := by
    rw [hlayers, List.forall_mem_map]
    exact fun s hs => Layer.isAbsolute_ofStage (hpaths s hs)
  refine ⟨hlayers, fun target htarget => ⟨fun stage => ?_, ?_, fun below _ hbelow i l hlast => ?_⟩, fun key => ?_,
    fun key stage => MergedRoot.get?_provenance_eq_some_iff, fun i l hlast => ?_⟩
  · exact MergedRoot.owner_eq_some_iff habsolute htarget
  · exact MergedRoot.owner_eq_none_iff habsolute htarget
  · exact MergedRoot.exists_lastAt_below hbelow hlast
  · rw [MergedRoot.mem_keys_provenance_iff, hlayers]
    simp [Layer.ofStage]
  · exact MergedRoot.owner_eq_provenance_or habsolute hlast

/-- Two stages at one path, and a third one around them. -/
def surroundedPipeline : Pipeline :=
  ⟨[⟨"build", .scratch, "/app/dist", "/out//build/."⟩, ⟨"again", .scratch, "/app/dist", "/out/build"⟩,
    ⟨"all", .scratch, "/app", "/out/"⟩]⟩

/-- The last layer at the path is that of the second stage, and the third stage is the owner. -/
theorem later_layer_owns_surrounded :
    ∃ m, (Build.mergeStages surroundedPipeline).run (.empty ⟨0⟩) = (.ok m, .empty ⟨0⟩) ∧
      LastAt (·.path = "/out/build") m.layers 1 ⟨"/out/build", "again"⟩ ∧
      m.provenance.get? "/out/build" = some "again" ∧ m.owner "/out/build" = some "all" ∧
      ∃ j l', 1 < j ∧ m.layers[j]? = some l' ∧ l'.stage ≠ "again" ∧ Path.Within "/out/build" l'.path ∧
        l'.path ≠ "/out/build" := by
  obtain ⟨m, hm⟩ : ∃ m, (Build.mergeStages surroundedPipeline).run (.empty ⟨0⟩) = (.ok m, .empty ⟨0⟩) := ⟨_, rfl⟩
  obtain ⟨hlayers, howner, -, hmapped, hdiffer⟩ := later_layer_owns (by decide) hm
  have hnormal : m.layers = [⟨"/out/build", "build"⟩, ⟨"/out/build", "again"⟩, ⟨"/out", "all"⟩] :=
    hlayers.trans (by decide)
  have hlast : LastAt (·.path = "/out/build") m.layers 1 ⟨"/out/build", "again"⟩ := by
    rw [hnormal]
    have hother : ¬"/out" = "/out/build" := by decide
    exact (@lastAt_concat _ _ [_, _] _ _ _).2 (.inr ⟨hother, (@lastAt_concat _ _ [_] _ _ _).2 (.inl ⟨rfl, rfl, rfl⟩)⟩)
  have habove : LastAt (Path.Within "/out/build" ·.path) m.layers 2 ⟨"/out", "all"⟩ := by
    rw [hnormal]
    exact (@lastAt_concat _ _ [_, _] _ _ _).2 (.inl ⟨by decide, rfl, rfl⟩)
  have hall : m.owner "/out/build" = some "all" := ((howner _ rfl).1 "all").2 ⟨2, _, habove, rfl⟩
  have hagain : m.provenance.get? "/out/build" = some "again" := (hmapped _ "again").2 ⟨1, _, hlast, rfl⟩
  refine ⟨m, hm, hlast, hagain, hall, ?_⟩
  rcases hdiffer 1 ⟨"/out/build", "again"⟩ hlast with hsame | hlater
  · rw [hall, hagain] at hsame
    exact absurd (Option.some.inj hsame) (by decide)
  · exact hlater

end BuildGraph
