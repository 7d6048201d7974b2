import BuildGraph.Proofs.Graph.Standing

/-!
# Builds that follow a plan

What a build comes to does not depend on what is in the graph already. It is said by a plan, which knows nothing of
graphs: `Follows` holds of a build and a plan if the build succeeds where the plan does, with a result that fits that
of the plan, and fails where the plan fails, with the same error. Builds that follow plans can be put together like
the plans (`Follows.bind`).
-/

namespace BuildGraph.Build

variable {ε ε' α β γ δ : Type}

/-- From a sound graph on, the build does what is planned. -/
inductive Follows (b : Build ε α) (g : Graph) (fits : Graph → α → β → Prop) : Except ε β → Prop
  | ok {a : α} {y : β} {g' : Graph} (hrun : b.run g = (.ok a, g')) (hgrows : g.GrowsTo g') (hsound : g'.Sound)
      (hfits : fits g' a y) : Follows b g fits (.ok y)
  | error {e : ε} {g' : Graph} (hrun : b.run g = (.error e, g')) : Follows b g fits (.error e)

namespace Follows

variable {b : Build ε α} {g : Graph} {fits : Graph → α → β → Prop} {x : Except ε β}

/-- What a build that succeeds has come to. -/
theorem of_run_eq_ok (h : b.Follows g fits x) {a : α} {g' : Graph} (hrun : b.run g = (.ok a, g')) :
    ∃ y, x = .ok y ∧ g.GrowsTo g' ∧ g'.Sound ∧ fits g' a y := by
  cases h with
  | @ok a' y g'' hrun' hgrows hsound hfits =>
      obtain ⟨ha, rfl⟩ := Prod.mk.inj (hrun'.symm.trans hrun)
      obtain rfl := Except.ok.inj ha
      exact ⟨y, rfl, hgrows, hsound, hfits⟩
  | error hrun' => cases (Prod.mk.inj (hrun'.symm.trans hrun)).1

/-- What a build comes to if the plan succeeds. -/
theorem exists_run_eq_ok {y : β} (h : b.Follows g fits (.ok y)) :
    ∃ a g', b.run g = (.ok a, g') ∧ g.GrowsTo g' ∧ g'.Sound ∧ fits g' a y := by
  cases h with
  | ok hrun hgrows hsound hfits => exact ⟨_, _, hrun, hgrows, hsound, hfits⟩

/-- A build fails where the plan fails, with its error. -/
theorem error_iff (h : b.Follows g fits x) {e : ε} : (b.run g).1 = .error e ↔ x = .error e := by
  cases h with
  | ok hrun => simp [hrun]
  | error hrun => simp [hrun]

theorem imp {fits' : Graph → α → β → Prop} (h : b.Follows g fits x)
    (himp : ∀ g' a y, g.GrowsTo g' → g'.Sound → fits g' a y → fits' g' a y) : b.Follows g fits' x := by
  cases h with
  | ok hrun hgrows hsound hfits => exact .ok hrun hgrows hsound (himp _ _ _ hgrows hsound hfits)
  | error hrun => exact .error hrun

theorem bind {f : α → Build ε γ} {k : β → Except ε δ} {fits' : Graph → γ → δ → Prop} (h : b.Follows g fits x)
    (hf : ∀ a y g', x = .ok y → g.GrowsTo g' → g'.Sound → fits g' a y → (f a).Follows g' fits' (k y)) :
    (b >>= f).Follows g fits' (x >>= k) := by
  cases h with
  | error hrun => exact .error (run_bind_error hrun)
  | @ok a y g' hrun hgrows hsound hfits =>
      have hrest := hf a y g' rfl hgrows hsound hfits
      change (b >>= f).Follows g fits' (k y)
      cases hk : k y with
      | error e =>
          rw [hk] at hrest
          cases hrest with
          | error hrun' => exact .error ((run_bind_ok hrun).trans hrun')
      | ok z =>
          rw [hk] at hrest
          cases hrest with
          | ok hrun' hgrows' hsound' hfits' =>
              exact .ok ((run_bind_ok hrun).trans hrun') (hgrows.trans hgrows') hsound' hfits'

/-- The result may be changed at the end. -/
theorem bind_pure {f : α → γ} {fits' : Graph → γ → β → Prop} (h : b.Follows g fits x)
    (hf : ∀ a y g', g.GrowsTo g' → g'.Sound → fits g' a y → fits' g' (f a) y) :
    (b >>= fun a => pure (f a)).Follows g fits' x := by
  cases h with
  | ok hrun hgrows hsound hfits => exact .ok (run_bind_ok hrun) hgrows hsound (hf _ _ _ hgrows hsound hfits)
  | error hrun => exact .error (run_bind_error hrun)

/-- A part of a build that cannot fail needs no counterpart in the plan. -/
theorem bind_ok {y : β} {f : α → Build ε γ} {z : Except ε δ} {fits' : Graph → γ → δ → Prop}
    (h : b.Follows g fits (.ok y))
    (hf : ∀ a g', g.GrowsTo g' → g'.Sound → fits g' a y → (f a).Follows g' fits' z) :
    (b >>= f).Follows g fits' z := by
  obtain ⟨a, g', hrun, hgrows, hsound, hfits⟩ := h.exists_run_eq_ok
  have hy : b.Follows g (fun g' a _ => fits g' a y) (.ok y) := .ok hrun hgrows hsound hfits
  exact hy.bind fun a _ g' _ hgrows hsound hfits => hf a g' hgrows hsound hfits

theorem mapError (h : b.Follows g fits x) (f : ε → ε') : (b.mapError f).Follows g fits (x.mapError f) := by
  cases h with
  | ok hrun hgrows hsound hfits => exact .ok (run_mapError_eq_ok_iff.2 hrun) hgrows hsound hfits
  | error hrun =>
      have hrun' := run_mapError f b g
      rw [hrun] at hrun'
      exact .error hrun'

end Follows

theorem follows_pure {g : Graph} (hg : g.Sound) {fits : Graph → α → β → Prop} {a : α} {y : β} (h : fits g a y) :
    (pure a : Build ε α).Follows g fits (pure y) :=
  .ok rfl (.refl g) hg h

theorem follows_ofExcept {g : Graph} (hg : g.Sound) (x : Except ε α) :
    (ofExcept x).Follows g (fun g' a y => g' = g ∧ a = y) x := by
  cases x with
  | ok a => exact .ok rfl (.refl g) hg ⟨rfl, rfl⟩
  | error e => exact .error rfl

/-- A vertex is interned that reads what the graph has. -/
theorem follows_accept {g : Graph} (hg : g.Sound) {b : Build ε α} {v : Vertex} {us : List Unfolding}
    {answer : Nat → α} (hrun : b.run g = g.accept (.ok ()) v answer) (hus : List.Forall₂ g.Shows v.inputs us)
    (hcount : 0 < v.op.outputCount) (y : β) :
    b.Follows g
      (fun g' a y' => y' = y ∧ ∃ vertex, a = answer vertex ∧ g'.vertex? vertex = some v ∧
        (∀ index < v.op.outputCount, g'.Shows (g.output vertex index) (.node v.op index us)) ∧
        g.Draws g' [.node v.op 0 us])
      (.ok y) :=
  .ok hrun (.intern g v) (hg.intern (Graph.hasOutput_of_shows hus))
    ⟨rfl, _, rfl, g.vertex?_intern v, fun _ hindex => Graph.shows_intern hg hus hindex, .intern hg hus hcount⟩

/-- The builds of a list follow the plans of its elements, where what fits goes on to fit while the graph grows.
Each build adds to the graph what its plan says. -/
theorem follows_mapM {f : α → Build ε β} {plan : α → Except ε γ} {fits : Graph → β → γ → Prop}
    {trees : γ → List Unfolding} {xs : List α}
    (hgrow : ∀ {g g' : Graph}, g.GrowsTo g' → g.Sound → g'.Sound → ∀ {y z}, fits g y z → fits g' y z)
    (hf : ∀ x ∈ xs, ∀ g : Graph, g.Sound →
      (f x).Follows g (fun g' y z => fits g' y z ∧ g.Draws g' (trees z)) (plan x)) {g : Graph} (hg : g.Sound) :
    (xs.mapM f).Follows g (fun g' ys zs => List.Forall₂ (fits g') ys zs ∧ g.Draws g' (zs.flatMap trees))
      (xs.mapM plan) := by
  induction xs generalizing g with
  | nil => exact follows_pure hg ⟨.nil, .refl g⟩
  | cons x xs ih =>
      obtain ⟨hx, hxs⟩ := List.forall_mem_cons.1 hf
      rw [List.mapM_cons, List.mapM_cons]
      refine (hx g hg).bind fun y z g₁ _ hgrows hg₁ ⟨hyz, hdraws⟩ => ?_
      refine (ih hxs hg₁).bind fun ys zs g₂ _ hgrows₂ hg₂ ⟨hyszs, hdraws₂⟩ => ?_
      exact follows_pure hg₂ ⟨.cons (hgrow hgrows₂ hg₁ hg₂ hyz) hyszs, hdraws.trans hdraws₂ hg₁ hg₂⟩

end BuildGraph.Build
