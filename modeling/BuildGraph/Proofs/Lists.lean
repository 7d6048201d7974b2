import Mathlib.Data.List.Forall2
import Mathlib.Data.List.Nodup

/-!
# Lists that belong together

Two lists correspond by a relation (`List.Forall₂`), a list is mapped by a partial function (`List.mapM` into
`Option`), and a list of pairs is a table (`List.lookup`).
-/

namespace BuildGraph

variable {α β γ : Type}

theorem exists_of_mem_left {R : α → β → Prop} {xs : List α} {ys : List β} (h : List.Forall₂ R xs ys)
    {x : α} (hx : x ∈ xs) : ∃ y ∈ ys, R x y := by
  induction h with
  | nil => cases hx
  | @cons x' y' xs ys hxy h ih =>
      rcases List.mem_cons.1 hx with rfl | hx
      · exact ⟨y', List.mem_cons_self, hxy⟩
      · obtain ⟨y, hy, hxy⟩ := ih hx
        exact ⟨y, List.mem_cons_of_mem _ hy, hxy⟩

theorem exists_of_mem_right {R : α → β → Prop} {xs : List α} {ys : List β} (h : List.Forall₂ R xs ys)
    {y : β} (hy : y ∈ ys) : ∃ x ∈ xs, R x y :=
  exists_of_mem_left h.flip hy

theorem forall₂_and_right {R : α → β → Prop} {p : β → Prop} {xs : List α} {ys : List β} (h : List.Forall₂ R xs ys)
    (hp : ∀ y ∈ ys, p y) : List.Forall₂ (fun x y => R x y ∧ p y) xs ys :=
  ((List.forall₂_and_left ys xs).2 ⟨hp, h.flip⟩).flip.imp fun _ _ => And.symm

/-- Lists that correspond to a list in between correspond through its elements. -/
theorem forall₂_comp {R : α → β → Prop} {S : β → γ → Prop} {xs : List α} {ys : List β} {zs : List γ}
    (h : List.Forall₂ R xs ys) (h' : List.Forall₂ S ys zs) :
    List.Forall₂ (fun x z => ∃ y, R x y ∧ S y z) xs zs := by
  induction h generalizing zs with
  | nil =>
      cases h'
      exact .nil
  | cons hxy h ih =>
      cases h' with
      | cons hyz h' => exact .cons ⟨_, hxy, hyz⟩ (ih h')

theorem exists_of_getElem? {R : α → β → Prop} {xs : List α} {ys : List β} (h : List.Forall₂ R xs ys) {k : Nat}
    {x : α} (hx : xs[k]? = some x) : ∃ y, ys[k]? = some y ∧ R x y := by
  induction h generalizing k with
  | nil => cases hx
  | @cons x' y' xs ys hxy h ih =>
      cases k with
      | zero =>
          obtain rfl := Option.some.inj hx
          exact ⟨y', rfl, hxy⟩
      | succ k => exact ih hx

theorem exists_of_getLast? {R : α → β → Prop} {xs : List α} {ys : List β} (h : List.Forall₂ R xs ys) {x : α}
    (hx : xs.getLast? = some x) : ∃ y, ys.getLast? = some y ∧ R x y := by
  rw [List.getLast?_eq_getElem?] at hx ⊢
  rw [← h.length_eq]
  exact exists_of_getElem? h hx

/-- A list whose elements all correspond to something corresponds to a list. -/
theorem exists_forall₂ {R : α → β → Prop} {xs : List α} (h : ∀ x ∈ xs, ∃ y, R x y) :
    ∃ ys, List.Forall₂ R xs ys := by
  induction xs with
  | nil => exact ⟨[], .nil⟩
  | cons x xs ih =>
      obtain ⟨⟨y, hy⟩, hxs⟩ := List.forall_mem_cons.1 h
      obtain ⟨ys, hys⟩ := ih hxs
      exact ⟨y :: ys, .cons hy hys⟩

/-- What corresponds through something else corresponds to a list of that. -/
theorem exists_forall₂_map_eq {R : α → β → Prop} {f : β → γ} {xs : List α} {zs : List γ}
    (h : List.Forall₂ (fun x z => ∃ y, R x y ∧ f y = z) xs zs) :
    ∃ ys, List.Forall₂ R xs ys ∧ ys.map f = zs := by
  induction h with
  | nil => exact ⟨[], .nil, rfl⟩
  | cons hxz h ih =>
      obtain ⟨y, hxy, rfl⟩ := hxz
      obtain ⟨ys, hys, rfl⟩ := ih
      exact ⟨y :: ys, .cons hxy hys, rfl⟩

theorem mapM_eq_none_iff {f : α → Option β} {xs : List α} :
    xs.mapM f = none ↔ ∃ x ∈ xs, f x = none := by
  induction xs with
  | nil => simp
  | cons x xs ih =>
      rw [List.mapM_cons]
      cases hx : f x with
      | none => simp [hx]
      | some y =>
          cases hxs : xs.mapM f with
          | none => simpa [hx, hxs] using ih.1 hxs
          | some ys => simpa [hx, hxs] using ih

theorem mapM_eq_some_iff {f : α → Option β} {xs : List α} {ys : List β} :
    xs.mapM f = some ys ↔ List.Forall₂ (fun x y => f x = some y) xs ys := by
  induction xs generalizing ys with
  | nil => cases ys <;> simp
  | cons x xs ih =>
      rw [List.mapM_cons, List.forall₂_cons_left_iff]
      constructor
      · intro h
        obtain ⟨y, hy, h⟩ := Option.bind_eq_some_iff.1 h
        obtain ⟨zs, hzs, h⟩ := Option.bind_eq_some_iff.1 h
        exact ⟨y, zs, hy, ih.1 hzs, (Option.some.inj h).symm⟩
      · rintro ⟨y, zs, hy, hzs, rfl⟩
        simp [hy, ih.2 hzs]

theorem mapM_eq_mapM_of_forall₂ {f : α → Option γ} {g : β → Option γ} {xs : List α} {ys : List β}
    (h : List.Forall₂ (fun x y => f x = g y) xs ys) : xs.mapM f = ys.mapM g := by
  induction h with
  | nil => rfl
  | cons hxy _ ih => rw [List.mapM_cons, List.mapM_cons, hxy, ih]

/-- Lists with the same image are the same if the map tells their elements apart. -/
theorem eq_of_map_eq {f : α → β} {xs ys : List α} (h : xs.map f = ys.map f)
    (hinj : ∀ x ∈ xs, ∀ y ∈ ys, f x = f y → x = y) : xs = ys := by
  induction xs generalizing ys with
  | nil => exact (List.map_eq_nil_iff.1 h.symm).symm
  | cons x xs ih =>
      cases ys with
      | nil => cases h
      | cons y ys =>
          obtain ⟨hhead, htail⟩ := List.cons.inj h
          have hxs : xs = ys :=
            ih htail fun x hx y hy => hinj x (List.mem_cons_of_mem _ hx) y (List.mem_cons_of_mem _ hy)
          rw [hinj x List.mem_cons_self y List.mem_cons_self hhead, hxs]

/-- Where each step keeps what has been chosen or takes the next element, one of the elements is chosen. -/
theorem mem_of_foldl_eq_some {f : Option α → α → Option α} (hf : ∀ b x, f b x = b ∨ f b x = some x)
    {xs : List α} {b : Option α} {y : α} (h : xs.foldl f b = some y) : b = some y ∨ y ∈ xs := by
  induction xs generalizing b with
  | nil => exact .inl h
  | cons x xs ih =>
      rcases ih h with hstep | hmem
      · rcases hf b x with hkept | htaken
        · exact .inl (hkept.symm.trans hstep)
        · obtain rfl := Option.some.inj (htaken.symm.trans hstep)
          exact .inr List.mem_cons_self
      · exact .inr (List.mem_cons_of_mem _ hmem)

theorem mem_of_lookup [BEq α] [LawfulBEq α] {l : List (α × β)} {a : α} {b : β}
    (h : l.lookup a = some b) : (a, b) ∈ l := by
  obtain ⟨before, after, rfl, -⟩ := List.lookup_eq_some_iff.1 h
  simp

/-- In a table without repeated keys every entry is found. -/
theorem lookup_eq_some_iff_mem [BEq α] [LawfulBEq α] {l : List (α × β)} (h : (l.map (·.1)).Nodup)
    {a : α} {b : β} : l.lookup a = some b ↔ (a, b) ∈ l := by
  induction l with
  | nil => simp
  | cons e l ih =>
      obtain ⟨k, c⟩ := e
      rw [List.map_cons, List.nodup_cons] at h
      rw [List.lookup_cons, List.mem_cons, Prod.mk.injEq]
      by_cases hk : a = k
      · have hnew : (a, b) ∉ l := fun hmem => h.1 (List.mem_map.2 ⟨(a, b), hmem, hk⟩)
        rw [← hk, beq_self_eq_true]
        simp [hnew, eq_comm]
      · rw [beq_false_of_ne hk]
        simp [hk, ih h.2]

/-- Without duplicates every element occurs once. -/
theorem nodup_eraseDups [BEq α] [LawfulBEq α] (l : List α) : l.eraseDups.Nodup := by
  induction hlength : l.length using Nat.strongRecOn generalizing l with
  | _ length ih =>
      cases l with
      | nil => exact List.nodup_nil
      | cons a l =>
          subst hlength
          rw [List.eraseDups_cons, List.nodup_cons]
          constructor
          · intro hmem
            have hother := (List.mem_filter.1 (List.mem_eraseDups.1 hmem)).2
            simp at hother
          · exact ih _ (Nat.lt_succ_of_le (List.length_filter_le ..)) _ rfl

end BuildGraph
