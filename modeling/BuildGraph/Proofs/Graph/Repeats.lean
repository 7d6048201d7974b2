import BuildGraph.Proofs.Graph.Answer

/-!
# Builds that can be repeated

A build is repeatable (`Build.Repeats`) if, run again behind itself, it has the same result and leaves the graph as it
is, also where the graph has grown in between. A call is, if its states can be had (`Call.repeats`), and to put such
builds together makes such builds, provided that what one of them gives is enough for the next.

A program makes calls one after another, each by what the calls in front have been answered (`Program`). It has its
states from these answers and from outside (`Program.Uses`), so each of its calls finds states that can be had, and the
whole program is repeatable (`Program.Uses.repeats`).
-/

namespace BuildGraph

variable {ε ε' α β : Type}

namespace Build

/-- Run again, the build gives what it gave and changes nothing. Of a result there is something known in the graph
that the build leads to. -/
structure Repeats (b : Build ε α) (g : Graph) (gives : Graph → α → Prop) : Prop where
  grows : g.GrowsTo (b.run g).2
  result : ∀ a g', b.run g = (.ok a, g') → gives g' a
  again : ∀ g', (b.run g).2.GrowsTo g' → b.run g' = ((b.run g).1, g')

/-- Behind itself and any further calls the build gives what it gave, and leaves the graph as it is. -/
def Replays (b : Build ε α) (g : Graph) : Prop :=
  ∀ calls : List Call,
    b.run (calls.foldl Call.next (b.run g).2) = ((b.run g).1, calls.foldl Call.next (b.run g).2)

variable {g : Graph} {gives : Graph → α → Prop} {b : Build ε α}

theorem Repeats.replays (h : b.Repeats g gives) : b.Replays g := fun calls => h.again _ (Call.growsTo_calls calls _)

theorem Repeats.imp {gives' : Graph → α → Prop} (h : b.Repeats g gives) (himp : ∀ g' a, gives g' a → gives' g' a) :
    b.Repeats g gives' where
  grows := h.grows
  result := fun a g' hrun => himp g' a (h.result a g' hrun)
  again := h.again

theorem repeats_pure {a : α} (h : gives g a) : (pure a : Build ε α).Repeats g gives where
  grows := .refl g
  result := by
    rintro _ _ ⟨⟩
    exact h
  again := fun _ _ => rfl

theorem repeats_ofExcept (x : Except ε α) (g : Graph) : (ofExcept x).Repeats g fun _ a => x = .ok a where
  grows := .refl g
  result := by
    rintro a _ hrun
    exact congrArg Prod.fst hrun
  again := fun _ _ => rfl

/-- What is asked of a graph is repeatable if the answer lasts. -/
theorem repeats_inspect {f : Graph → Except ε α} (h : ∀ g', g.GrowsTo g' → f g' = f g) :
    (inspect f).Repeats g fun _ a => f g = .ok a where
  grows := .refl g
  result := by
    rintro a _ hrun
    exact congrArg Prod.fst hrun
  again := by
    intro g' hgrows
    rw [run_inspect, run_inspect, h g' hgrows]

theorem Repeats.bind {f : α → Build ε β} {gives' : Graph → β → Prop} (hb : b.Repeats g gives)
    (hf : ∀ a g', g.GrowsTo g' → gives g' a → (f a).Repeats g' gives') : (b >>= f).Repeats g gives' := by
  have hgrows := hb.grows
  have hagain := hb.again
  cases hrun : b.run g with
  | mk result g₁ =>
      rw [hrun] at hgrows hagain
      cases result with
      | error e =>
          refine ⟨?_, ?_, ?_⟩
          · rwa [run_bind_error hrun]
          · intro y g' hbind
            rw [run_bind_error hrun] at hbind
            cases hbind
          · intro g' hg'
            rw [run_bind_error hrun] at hg' ⊢
            exact run_bind_error (hagain g' hg')
      | ok a =>
          have hnext := hf a g₁ hgrows (hb.result a g₁ hrun)
          refine ⟨?_, ?_, ?_⟩
          · rw [run_bind_ok hrun]
            exact hgrows.trans hnext.grows
          · intro y g' hbind
            rw [run_bind_ok hrun] at hbind
            exact hnext.result y g' hbind
          -- what the second build leads to is behind what the first one led to
          · intro g' hg'
            rw [run_bind_ok hrun] at hg' ⊢
            rw [run_bind_ok (hagain g' (hnext.grows.trans hg'))]
            exact hnext.again g' hg'

theorem Repeats.bind_pure {f : α → β} {gives' : Graph → β → Prop} (hb : b.Repeats g gives)
    (hf : ∀ a g', g.GrowsTo g' → gives g' a → gives' g' (f a)) : (b >>= fun a => pure (f a)).Repeats g gives' :=
  hb.bind fun a g' hgrows ha => repeats_pure (hf a g' hgrows ha)

theorem Repeats.mapError (h : b.Repeats g gives) (f : ε → ε') : (b.mapError f).Repeats g gives where
  grows := by
    rw [run_mapError]
    exact h.grows
  result := fun a g' hrun => h.result a g' (run_mapError_eq_ok_iff.1 hrun)
  again := by
    intro g' hg'
    rw [run_mapError] at hg' ⊢
    rw [run_mapError, h.again g' hg']

theorem repeats_foldlM {f : β → α → Build ε β} {keeps : Graph → β → Prop} {xs : List α}
    (hf : ∀ y, ∀ x ∈ xs, ∀ g', g.GrowsTo g' → keeps g' y → (f y x).Repeats g' keeps) {y : β} (hy : keeps g y) :
    (xs.foldlM f y).Repeats g keeps := by
  induction xs generalizing g y with
  | nil => exact repeats_pure hy
  | cons x xs ih =>
      rw [List.foldlM_cons]
      refine (hf y x List.mem_cons_self g (.refl g) hy).bind fun z g' hgrows hz => ih ?_ hz
      intro y' x' hx' g'' hgrows' hy'
      exact hf y' x' (List.mem_cons_of_mem _ hx') g'' (hgrows.trans hgrows') hy'

/-- What is known of the results has to last while the builds behind them run. -/
theorem repeats_mapM {f : α → Build ε β} {gives : Graph → β → Prop}
    (hlasts : ∀ {g g' : Graph} {y : β}, g.GrowsTo g' → gives g y → gives g' y) {xs : List α}
    (hf : ∀ x ∈ xs, ∀ g', g.GrowsTo g' → (f x).Repeats g' gives) :
    (xs.mapM f).Repeats g fun g' ys => ∀ y ∈ ys, gives g' y := by
  induction xs generalizing g with
  | nil => exact repeats_pure fun y hy => absurd hy List.not_mem_nil
  | cons x xs ih =>
      rw [List.mapM_cons]
      refine (hf x List.mem_cons_self g (.refl g)).bind fun y g₁ hgrows hy => ?_
      have hrest : ∀ x' ∈ xs, ∀ g', g₁.GrowsTo g' → (f x').Repeats g' gives :=
        fun x' hx' g' hgrows' => hf x' (List.mem_cons_of_mem _ hx') g' (hgrows.trans hgrows')
      refine (ih hrest).bind_pure fun ys g₂ hgrows' hys => ?_
      exact List.forall_mem_cons.2 ⟨hlasts hgrows' hy, hys⟩

/-- The result of the build, or its error, as a result. -/
def attempt (b : Build ε α) : Build ε' (Except ε α) := fun g => (.ok (b.run g).1, (b.run g).2)

theorem run_attempt (b : Build ε α) (g : Graph) :
    (attempt b : Build ε' (Except ε α)).run g = (.ok (b.run g).1, (b.run g).2) := rfl

theorem Repeats.attempt (h : b.Repeats g gives) :
    (attempt b : Build ε' (Except ε α)).Repeats g fun g' result => ∀ a, result = .ok a → gives g' a where
  grows := h.grows
  result := by
    rintro result g' hrun a rfl
    rw [run_attempt, Prod.mk.injEq, Except.ok.injEq] at hrun
    exact h.result a g' (Prod.ext hrun.1 hrun.2)
  again := by
    intro g' hg'
    rw [run_attempt, run_attempt, h.again g' hg']

/-- A build is repeatable if it is after its results have been renamed. -/
theorem Repeats.of_map {f : α → β} (hf : Function.Injective f) {gives' : Graph → β → Prop}
    (h : (f <$> b).Repeats g gives') : b.Repeats g fun g' a => gives' g' (f a) where
  grows := by
    have hgrows := h.grows
    rwa [run_map] at hgrows
  result := fun a g' hrun => h.result (f a) g' (run_map_eq_ok_iff.2 ⟨a, hrun, rfl⟩)
  again := by
    intro g' hg'
    have hagain := h.again g' (by rwa [run_map])
    rw [run_map, run_map, Prod.mk.injEq] at hagain
    refine Prod.ext ?_ hagain.2
    have hsame := hagain.1
    revert hsame
    cases (b.run g').1 <;> cases (b.run g).1 <;> simp [Except.map, hf.eq_iff]

end Build

variable {g : Graph}

/-- All states that can be had from the answer are states of the graph. -/
def Answer.Held (g : Graph) (a : Answer) : Prop := ∀ s, a.Shows s → g.check s = .ok ()

theorem Answer.Held.grow {g' : Graph} {a : Answer} (h : a.Held g) (hgrows : g.GrowsTo g') : a.Held g' :=
  fun s hs => hgrows.check (h s hs)

theorem Call.repeats {c : Call} (hstates : ∀ s ∈ c.states, g.Genuine s) :
    c.build.Repeats g fun g' a => a.Held g' where
  grows := by
    rw [snd_run_build]
    exact c.growsTo_next g
  result := fun _ _ hrun _ hs => check_of_shows hrun hs
  again := by
    intro g' hg'
    rw [snd_run_build] at hg'
    exact run_build_again hstates hg'

namespace Build

/-- A state of the graph has been given. -/
abbrev GivesState (g : Graph) (s : State) : Prop := g.check s = .ok ()

theorem Repeats.of_state {b : Build ε State} (h : (Answer.state <$> b).Repeats g fun g' a => a.Held g') :
    b.Repeats g GivesState :=
  (h.of_map fun _ _ => Answer.state.inj).imp fun _ s hs => hs s (.state s)

theorem repeats_image (reference : String) (g : Graph) : (image reference).Repeats g GivesState :=
  (Call.repeats (c := .image reference) fun _ hs => absurd hs List.not_mem_nil).of_state

theorem repeats_localDir (name : String) (g : Graph) : (localDir name).Repeats g GivesState :=
  (Call.repeats (c := .localDir name) fun _ hs => absurd hs List.not_mem_nil).of_state

theorem repeats_copy {src dest : State} (hsrc : g.Genuine src) (hdest : g.Genuine dest) (srcPath destPath : String)
    (flags : CopyFlags) : (copy src srcPath dest destPath flags).Repeats g GivesState := by
  refine (Call.repeats (c := .copy src srcPath dest destPath flags) ?_).of_state
  exact List.forall_mem_cons.2 ⟨hsrc, List.forall_mem_singleton.2 hdest⟩

theorem repeats_merge {states : List State} (hstates : ∀ s ∈ states, g.Genuine s) :
    (merge states).Repeats g GivesState :=
  (Call.repeats (c := .merge states) hstates).of_state

theorem repeats_exec {base : State} {options : RunOptions} (hbase : g.Genuine base)
    (hmounts : ∀ m ∈ options.mounts, g.Genuine m.source) :
    (exec base options).Repeats g fun g' r => (Answer.run r).Held g' := by
  refine (Call.repeats (c := .exec base options) ?_).of_map fun _ _ => Answer.run.inj
  exact List.forall_mem_cons.2 ⟨hbase, List.forall_mem_map.2 hmounts⟩

end Build

/-- Calls one after another. What is called next may depend on what the calls in front have been answered. -/
inductive Program
  | done
  | call (c : Call) (next : Except GraphError Answer → Program)

/-- A state made of those that are known, or of nothing. -/
inductive State.Derives (known : State → Prop) : State → Prop
  | known {s : State} (h : known s) : Derives known s
  | scratch : Derives known .scratch
  | withDir {s : State} (h : Derives known s) (dir : String) : Derives known (s.withDir dir)
  | withEnv {s : State} (h : Derives known s) (key value : String) : Derives known (s.withEnv key value)

namespace Program

/-- Makes the calls, and lists what they are answered. -/
def build : Program → Build GraphError (List (Except GraphError Answer))
  | done => pure []
  | call c next => do
    let result ← c.build.attempt
    return result :: (← (next result).build)

/-- The program has its states from some that it knows and from the answers that it gets, whatever these are. -/
inductive Uses : (State → Prop) → Program → Prop
  | done {known : State → Prop} : Uses known .done
  | call {known : State → Prop} {c : Call} {next : Except GraphError Answer → Program}
      (hstates : ∀ s ∈ c.states, s.Derives known)
      (hnext : ∀ result, Uses (fun s => known s ∨ ∃ a, result = .ok a ∧ a.Shows s) (next result)) :
      Uses known (.call c next)

theorem genuine_of_derives {known : State → Prop} (hknown : ∀ s, known s → g.Genuine s) {s : State}
    (h : s.Derives known) : g.Genuine s := by
  induction h with
  | known h => exact hknown _ h
  | scratch => exact g.genuine_scratch
  | withDir _ dir ih => exact ih
  | withEnv _ key value ih => exact ih

/-- A program that knows states that can be had is repeatable. -/
theorem Uses.repeats {known : State → Prop} {p : Program} (h : p.Uses known) (hknown : ∀ s, known s → g.Genuine s) :
    p.build.Repeats g fun _ _ => True := by
  induction h generalizing g with
  | done => exact Build.repeats_pure trivial
  | @call known c next hstates hnext ih =>
      have hcall := Call.repeats fun s hs => genuine_of_derives hknown (hstates s hs)
      refine hcall.attempt.bind fun result g' hgrows hheld => ?_
      refine (ih result fun s hs => ?_).bind_pure fun _ _ _ _ => trivial
      rcases hs with hs | ⟨a, ha, hshows⟩
      · exact (hknown s hs).grow hgrows
      · exact Graph.genuine_of_check (hheld a ha s hshows)

end Program

end BuildGraph
