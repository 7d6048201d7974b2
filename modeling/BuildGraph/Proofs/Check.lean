import Mathlib.Data.List.Forall2

/-!
# Checks and runs that succeed

A check is an `Except` without a result. What is done one after another succeeds exactly if each part does, and
then every part has its result: `bind_eq_ok_iff` says it of two steps, `check_bind_eq_ok_iff` of a check and what
follows it, `refuse_eq_ok_iff` of a condition under which something is refused, `forM_eq_ok_iff` of the checks of a
list, `mapM_eq_ok_iff` of the results of a list, which correspond to its elements one by one.

It fails with the error of the first part that does not succeed: `bind_eq_error_iff` and those behind it say this
of the same ways of putting checks together.
-/

namespace BuildGraph

variable {ε ε' α β γ : Type}

theorem exists_eq_ok {x : Except ε α} (h : x.isOk = true) : ∃ a, x = .ok a := by
  cases x with
  | ok a => exact ⟨a, rfl⟩
  | error e => cases h

theorem bind_eq_ok_iff {x : Except ε α} {f : α → Except ε β} {b : β} :
    (x >>= f) = .ok b ↔ ∃ a, x = .ok a ∧ f a = .ok b := by
  cases x with
  | error e => simp [bind, Except.bind]
  | ok a => simp [bind, Except.bind]

/-- A check and what follows it. -/
theorem check_bind_eq_ok_iff {x : Except ε Unit} {f : Unit → Except ε α} {a : α} :
    (x >>= f) = .ok a ↔ x = .ok () ∧ f () = .ok a := by
  rw [bind_eq_ok_iff]
  constructor
  · rintro ⟨⟨⟩, hx, hf⟩
    exact ⟨hx, hf⟩
  · rintro ⟨hx, hf⟩
    exact ⟨(), hx, hf⟩

theorem forM_eq_ok_iff {f : α → Except ε Unit} {xs : List α} :
    xs.forM f = .ok () ↔ ∀ x ∈ xs, f x = .ok () := by
  induction xs with
  | nil => simp [pure, Except.pure]
  | cons x xs ih =>
      rw [List.forM_eq_forM, List.forM_cons, check_bind_eq_ok_iff, List.forall_mem_cons, ← ih]
      rfl

theorem map_eq_ok_iff {f : α → β} {x : Except ε α} {b : β} : x.map f = .ok b ↔ ∃ a, x = .ok a ∧ f a = b := by
  cases x <;> simp [Except.map]

theorem mapError_eq_ok_iff {f : ε → ε'} {x : Except ε α} {a : α} :
    x.mapError f = .ok a ↔ x = .ok a := by
  cases x <;> simp [Except.mapError]

theorem throw_bind_ne_ok {e : ε} {f : β → Except ε α} {a : α} : (throw e >>= f) ≠ Except.ok a := by
  simp [throw, throwThe, MonadExceptOf.throw, bind, Except.bind]

/-- What is refused under a condition succeeds only without it. -/
theorem refuse_eq_ok_iff {p : Prop} [Decidable p] {e : ε} {f : β → Except ε α} {x : Except ε α} {a : α} :
    (if p then throw e >>= f else x) = .ok a ↔ ¬p ∧ x = .ok a := by
  by_cases hp : p
  · simp [hp, throw_bind_ne_ok]
  · simp [hp]

theorem mapM_eq_ok_iff {f : α → Except ε β} {xs : List α} {ys : List β} :
    xs.mapM f = .ok ys ↔ List.Forall₂ (fun x y => f x = .ok y) xs ys := by
  induction xs generalizing ys with
  | nil => cases ys <;> simp [pure, Except.pure]
  | cons x xs ih =>
      simp only [List.mapM_cons, bind_eq_ok_iff, ih, List.forall₂_cons_left_iff, pure, Except.pure,
        Except.ok.injEq]
      constructor
      · rintro ⟨y, hy, zs, hzs, rfl⟩
        exact ⟨y, zs, hy, hzs, rfl⟩
      · rintro ⟨y, zs, hy, hzs, rfl⟩
        exact ⟨y, hy, zs, hzs, rfl⟩

theorem bind_eq_error_iff {x : Except ε α} {f : α → Except ε β} {e : ε} :
    (x >>= f) = .error e ↔ x = .error e ∨ ∃ a, x = .ok a ∧ f a = .error e := by
  cases x with
  | error e' => simp [bind, Except.bind]
  | ok a => simp [bind, Except.bind]

theorem check_bind_eq_error_iff {x : Except ε Unit} {f : Unit → Except ε α} {e : ε} :
    (x >>= f) = .error e ↔ x = .error e ∨ x = .ok () ∧ f () = .error e := by
  rw [bind_eq_error_iff]
  apply or_congr_right
  constructor
  · rintro ⟨⟨⟩, hx, hf⟩
    exact ⟨hx, hf⟩
  · rintro ⟨hx, hf⟩
    exact ⟨(), hx, hf⟩

/-- The first element of a list with a property, where those in front of it have another one. -/
theorem exists_split_cons_iff {p q : α → Prop} {x : α} {xs : List α} :
    (∃ before y after, x :: xs = before ++ y :: after ∧ (∀ z ∈ before, p z) ∧ q y) ↔
      q x ∨ p x ∧ ∃ before y after, xs = before ++ y :: after ∧ (∀ z ∈ before, p z) ∧ q y := by
  constructor
  · rintro ⟨before, y, after, hxs, hbefore, hy⟩
    cases before with
    | nil =>
        obtain ⟨rfl, rfl⟩ := List.cons.inj hxs
        exact .inl hy
    | cons b before =>
        obtain ⟨rfl, rfl⟩ := List.cons.inj hxs
        obtain ⟨hx, hbefore⟩ := List.forall_mem_cons.1 hbefore
        exact .inr ⟨hx, before, y, after, rfl, hbefore, hy⟩
  · rintro (hx | ⟨hx, before, y, after, rfl, hbefore, hy⟩)
    · exact ⟨[], x, xs, rfl, fun _ h => absurd h List.not_mem_nil, hx⟩
    · exact ⟨x :: before, y, after, rfl, List.forall_mem_cons.2 ⟨hx, hbefore⟩, hy⟩

/-- The checks of a list fail at the first element that does not pass. -/
theorem forM_eq_error_iff {f : α → Except ε Unit} {xs : List α} {e : ε} :
    xs.forM f = .error e ↔
      ∃ before x after, xs = before ++ x :: after ∧ (∀ y ∈ before, f y = .ok ()) ∧ f x = .error e := by
  induction xs with
  | nil => simp [pure, Except.pure]
  | cons x xs ih =>
      rw [exists_split_cons_iff, ← ih, List.forM_eq_forM, List.forM_cons, check_bind_eq_error_iff]

/-- There are results for a list unless there is none for an element. The first such element gives the error. -/
theorem mapM_eq_error_iff {f : α → Except ε β} {xs : List α} {e : ε} :
    xs.mapM f = .error e ↔
      ∃ before x after, xs = before ++ x :: after ∧ (∀ y ∈ before, ∃ z, f y = .ok z) ∧ f x = .error e := by
  induction xs with
  | nil => simp [pure, Except.pure]
  | cons x xs ih =>
      rw [exists_split_cons_iff, ← ih, List.mapM_cons, bind_eq_error_iff]
      simp [bind_eq_error_iff, pure, Except.pure]

theorem mapError_eq_error_iff {f : ε → ε'} {x : Except ε α} {e : ε'} :
    x.mapError f = .error e ↔ ∃ reason, x = .error reason ∧ f reason = e := by
  cases x <;> simp [Except.mapError]

theorem refuse_eq_error_iff {p : Prop} [Decidable p] {e e' : ε} {f : β → Except ε α} {x : Except ε α} :
    (if p then throw e >>= f else x) = .error e' ↔ p ∧ e = e' ∨ ¬p ∧ x = .error e' := by
  by_cases hp : p <;> simp [hp, throw, throwThe, MonadExceptOf.throw, bind, Except.bind]

end BuildGraph
