import BuildGraph.Pipeline.Assemble
import BuildGraph.Proofs.Graph.Sound

/-!
# Graphs grow

A build adds vertices behind those that are there and changes nothing else, whatever it consists of and whether
it succeeds or fails. So what has been said of a vertex or an output stays true (`GrowsTo.vertex?`), and what a
part of a build did can be looked up in the graph that the whole build leads to (`run_mapM_eq_ok`).
-/

namespace BuildGraph

variable {ε ε' α β : Type}

/-- The same graph, maybe with more vertices. -/
structure Graph.GrowsTo (g g' : Graph) : Prop where
  id : g'.id = g.id
  vertices : g.vertices <+: g'.vertices

namespace Graph.GrowsTo

variable {g g' g'' : Graph}

theorem refl (g : Graph) : g.GrowsTo g := ⟨rfl, List.prefix_rfl⟩

theorem trans (h : g.GrowsTo g') (h' : g'.GrowsTo g'') : g.GrowsTo g'' :=
  ⟨h'.id.trans h.id, h.vertices.trans h'.vertices⟩

theorem intern (g : Graph) (v : Vertex) : g.GrowsTo (g.intern v).2 :=
  ⟨g.id_intern v, g.vertices_prefix_intern v⟩

theorem vertex? (h : g.GrowsTo g') {i : Nat} {v : Vertex} (hv : g.vertex? i = some v) :
    g'.vertex? i = some v :=
  vertex?_of_prefix h.vertices hv

end Graph.GrowsTo

namespace Build

theorem bind_pure_self (b : Build ε α) : (b >>= fun a => pure a) = b := by
  funext g
  change (b >>= fun a => pure a).run g = b.run g
  rw [run_bind]
  split <;> rename_i h <;> exact h.symm

theorem bind_bind {γ : Type} (b : Build ε α) (f : α → Build ε β) (h : β → Build ε γ) :
    b >>= f >>= h = b >>= fun a => f a >>= h := by
  funext g
  change (b >>= f >>= h).run g = (b >>= fun a => f a >>= h).run g
  simp only [run_bind]
  cases b.run g with
  | mk result g => cases result <;> rfl

instance : LawfulMonad (Build ε) :=
  LawfulMonad.mk' (Build ε) bind_pure_self (fun _ _ => rfl) bind_bind

theorem run_bind_eq_ok_iff {b : Build ε α} {f : α → Build ε β} {g g' : Graph} {y : β} :
    (b >>= f).run g = (.ok y, g') ↔ ∃ x g₁, b.run g = (.ok x, g₁) ∧ (f x).run g₁ = (.ok y, g') := by
  rw [run_bind]
  split
  · rename_i x g₁ h
    simp [h]
  · rename_i e g₁ h
    simp [h]

theorem run_mapError_eq_ok_iff {f : ε → ε'} {b : Build ε α} {g g' : Graph} {x : α} :
    (b.mapError f).run g = (.ok x, g') ↔ b.run g = (.ok x, g') := by
  rw [run_mapError]
  cases b.run g with
  | mk result g₁ => cases result <;> simp [Except.mapError]

theorem run_ofExcept_eq_ok_iff {x : Except ε α} {g g' : Graph} {a : α} :
    (ofExcept x).run g = (.ok a, g') ↔ x = .ok a ∧ g' = g := by
  rw [run_ofExcept, Prod.mk.injEq, eq_comm (a := g)]

/-- A build only makes graphs grow. -/
def Grows (b : Build ε α) : Prop := ∀ g : Graph, g.GrowsTo (b.run g).2

theorem grows_pure (a : α) : (pure a : Build ε α).Grows := fun g => .refl g

theorem Grows.bind {b : Build ε α} {f : α → Build ε β} (hb : b.Grows) (hf : ∀ a, (f a).Grows) :
    (b >>= f).Grows := by
  intro g
  have hgrows := hb g
  rw [run_bind]
  split
  · rename_i a g₁ h
    rw [h] at hgrows
    exact hgrows.trans (hf a g₁)
  · rename_i e g₁ h
    rwa [h] at hgrows

theorem grows_ofExcept (x : Except ε α) : (ofExcept x).Grows := fun g => .refl g

theorem Grows.mapError {b : Build ε α} (hb : b.Grows) (f : ε → ε') : (b.mapError f).Grows := by
  intro g
  rw [run_mapError]
  exact hb g

theorem grows_mapM {f : α → Build ε β} (hf : ∀ x, (f x).Grows) (xs : List α) : (xs.mapM f).Grows := by
  induction xs with
  | nil => exact grows_pure []
  | cons x xs ih =>
      rw [List.mapM_cons]
      exact (hf x).bind fun y => ih.bind fun ys => grows_pure _

theorem grows_foldlM {f : β → α → Build ε β} (hf : ∀ y x, (f y x).Grows) (xs : List α) (y : β) :
    (xs.foldlM f y).Grows := by
  induction xs generalizing y with
  | nil => exact grows_pure y
  | cons x xs ih =>
      rw [List.foldlM_cons]
      exact (hf y x).bind fun y => ih y

/-- What a list of builds did, each in a graph that the builds in front have led to. -/
theorem forall₂_of_run_mapM {f : α → Build ε β} (hf : ∀ x, (f x).Grows) {xs : List α} {ys : List β}
    {g g' : Graph} (h : (xs.mapM f).run g = (.ok ys, g')) :
    List.Forall₂
      (fun x y => ∃ g₁ g₂, g.GrowsTo g₁ ∧ (f x).run g₁ = (.ok y, g₂) ∧ g₂.GrowsTo g') xs ys := by
  induction xs generalizing ys g with
  | nil =>
      cases h
      exact .nil
  | cons x xs ih =>
      rw [List.mapM_cons] at h
      obtain ⟨y, g₁, hy, h⟩ := run_bind_eq_ok_iff.1 h
      obtain ⟨rest, g₂, hrest, h⟩ := run_bind_eq_ok_iff.1 h
      cases h
      have hstep : g.GrowsTo g₁ := by
        have hgrows := hf x g
        rwa [hy] at hgrows
      have hsteps : g₁.GrowsTo g' := by
        have hgrows := grows_mapM hf xs g₁
        rwa [hrest] at hgrows
      refine .cons ⟨g, g₁, .refl g, hy, hsteps⟩ ((ih hrest).imp ?_)
      rintro x' y' ⟨g₃, g₄, hfront, hrun, hback⟩
      exact ⟨g₃, g₄, hstep.trans hfront, hrun, hback⟩

theorem growsTo_accept {condition : Except ε Unit} {v : Vertex} {answer : Nat → α} (g : Graph) :
    g.GrowsTo (g.accept condition v answer).2 := by
  unfold Graph.accept
  split
  · exact .refl g
  · exact .intern g v

theorem grows_image (reference : String) : (image reference).Grows := by
  intro g
  rw [run_image]
  split
  · exact .refl g
  · exact growsTo_accept g

theorem grows_localDir (name : String) : (localDir name).Grows := by
  intro g
  rw [run_localDir]
  exact growsTo_accept g

theorem grows_exec (base : State) (options : RunOptions) : (exec base options).Grows := by
  intro g
  rw [run_exec]
  exact growsTo_accept g

theorem grows_copy (src : State) (srcPath : String) (dest : State) (destPath : String)
    (flags : CopyFlags) : (copy src srcPath dest destPath flags).Grows := by
  intro g
  rw [run_copy]
  exact growsTo_accept g

theorem grows_command (base : State) (line : String) (mounts : List Mount) (env : StringMap) :
    (command base line mounts env).Grows :=
  (grows_ofExcept _).bind fun _ => grows_exec _ _

theorem grows_plainCommand (base : State) (line : String) : (plainCommand base line).Grows :=
  (grows_command _ _ _ _).bind fun _ => grows_pure _

theorem grows_baseState (b : BaseConfig) : (baseState b).Grows := by
  refine (grows_image _).bind fun _ => (grows_plainCommand _ _).bind fun _ => ?_
  refine (grows_localDir _).bind fun _ => (grows_copy _ _ _ _ _).bind fun _ => ?_
  exact (grows_command _ _ _ _).bind fun _ => grows_pure _

theorem grows_stageResult (s : StageConfig) (last : RunResult) : (stageResult s last).Grows :=
  (grows_copy _ _ _ _ _).bind fun _ => grows_pure _

end Build

end BuildGraph
