import BuildGraph.Proofs.Graph.Consistency

/-!
# What calls answer

A call is answered with a state, or with a run if it starts a process. All calls come to their answers in one way
(`Call.run_build`): there may be something wrong with the call itself, then its states are checked, and then it has a
vertex, which is interned. The graph decides no more than where the vertex is and which states belong to it.

Whoever makes a call has its states from the graph, or from another one, or the state is the empty filesystem
(`Graph.Genuine`). Of these just the states of other graphs are refused, however far the graph has grown, so a call
that is made again is answered as before, and changes nothing (`Call.run_build_again`).
-/

namespace BuildGraph

variable {ε α β : Type}

/-- What is given back by a call that succeeds. -/
inductive Answer
  | state (s : State)
  | run (r : RunResult)
deriving DecidableEq

/-- The states that can be had from an answer: the answer itself, or the filesystems of a run. -/
inductive Answer.Shows : Answer → State → Prop
  | state (s : State) : Shows (.state s) s
  | root (r : RunResult) : Shows (.run r) r.root
  | mount {r : RunResult} {target : String} {s : State} (h : r.mount target = .ok s) : Shows (.run r) s
  | holder (r : RunResult) (path : String) : Shows (.run r) (r.holder path).1

theorem Graph.accept_map (g : Graph) (condition : Except ε Unit) (v : Vertex) (answer : Nat → α) (f : α → β) :
    ((g.accept condition v answer).1.map f, (g.accept condition v answer).2) =
      g.accept condition v fun vertex => f (answer vertex) := by
  cases condition <;> rfl

namespace Build

theorem run_map (f : α → β) (b : Build ε α) (g : Graph) :
    (f <$> b).run g = ((b.run g).1.map f, (b.run g).2) := by
  rw [map_eq_pure_bind, run_bind]
  split <;> rename_i h <;> rw [h] <;> rfl

theorem run_map_eq_ok_iff {f : α → β} {b : Build ε α} {g g' : Graph} {y : β} :
    (f <$> b).run g = (.ok y, g') ↔ ∃ x, b.run g = (.ok x, g') ∧ f x = y := by
  rw [run_map]
  cases b.run g with
  | mk result g₁ =>
      cases result with
      | error e => simp [Except.map]
      | ok x => simp [Except.map, and_comm]

/-- A state that can be had from an answer that is a state has been given itself. -/
theorem run_of_shows {b : Build ε State} {g g' : Graph} {a : Answer}
    (h : (Answer.state <$> b).run g = (.ok a, g')) {s : State} (hs : a.Shows s) : b.run g = (.ok s, g') := by
  obtain ⟨s', hrun, rfl⟩ := run_map_eq_ok_iff.1 h
  cases hs
  exact hrun

end Build

namespace Call

def build : Call → Build GraphError Answer
  | image reference => .state <$> Build.image reference
  | localDir name => .state <$> Build.localDir name
  | exec base options => .run <$> Build.exec base options
  | copy src srcPath dest destPath flags => .state <$> Build.copy src srcPath dest destPath flags
  | merge states => .state <$> Build.merge states

theorem snd_run_build (c : Call) (g : Graph) : (c.build.run g).2 = c.next g := by
  cases c <;> rw [build, Build.run_map, next]

/-- The states that a call is given, in the order in which they are checked. -/
def states : Call → List State
  | image _ | localDir _ => []
  | exec base options => base :: options.mounts.map (·.source)
  | copy src _ dest _ _ => [src, dest]
  | merge states => states

/-- What is wrong with a call whatever its states are. -/
def fault : Call → Except GraphError Unit
  | image reference =>
      match ImageRef.normalize reference with
      | .error problem => .error (.invalidImageRef reference problem)
      | .ok _ => .ok ()
  | localDir name => if Build.isLocalName name then .ok () else .error (.invalidLocalName name)
  | exec _ options => Build.checkProgram options.args
  | copy .. | merge _ => .ok ()

/-- What is asked before a call is answered. -/
def condition (c : Call) (g : Graph) : Except GraphError Unit := do
  c.fault
  c.states.forM g.check

/-- What a call interns. -/
def vertex? : Call → Option Vertex
  | image reference =>
      match ImageRef.normalize reference with
      | .error _ => none
      | .ok name => some ⟨.source ⟨"docker-image://" ++ name, .empty⟩, []⟩
  | localDir name => some ⟨.source ⟨"local://" ++ name, .ofList [(Build.localHint, name)]⟩, []⟩
  | exec base options => some (runVertex base options)
  | copy src srcPath dest destPath flags => some (Build.copyVertex src srcPath dest destPath flags)
  | merge states =>
      match Build.layersOf states with
      | [] | [_] => none
      | layers => some (Build.mergeVertex layers)

/-- The answer that is made of the position of the vertex. -/
def answer (id : GraphId) (vertex : Nat) : Call → Answer
  | image _ | localDir _ => .state (.ofOutput ⟨id, vertex, 0⟩)
  | exec base options =>
      .run ⟨id, vertex, ⟨some ⟨id, vertex, 0⟩, base.setting⟩, mountResults 1 options.mounts⟩
  | copy _ _ dest _ _ => .state ⟨some ⟨id, vertex, 0⟩, dest.setting⟩
  | merge states =>
      match Build.layersOf states with
      | [] => .state .scratch
      | [layer] => .state layer
      | _ => .state (.ofOutput ⟨id, vertex, 0⟩)

/-- The empty filesystem passes every check. -/
theorem forM_check_layersOf (g : Graph) (states : List State) :
    (Build.layersOf states).forM g.check = states.forM g.check := by
  induction states with
  | nil => rfl
  | cons s ss ih =>
      simp only [List.forM_eq_forM] at ih ⊢
      rw [Build.layersOf, List.filter_cons]
      split
      · rw [List.forM_cons, List.forM_cons, ← ih, Build.layersOf]
      · rename_i hscratch
        have hs : g.check s = .ok () := by
          rw [g.check_eq_ok_iff]
          intro o ho
          rw [State.isScratch, ho] at hscratch
          exact absurd rfl hscratch
        rw [List.forM_cons, hs, ← ih]
        rfl

/-- Every call is answered in the same way. -/
theorem run_build (c : Call) (g : Graph) :
    c.build.run g =
      match c.vertex? with
      | some v => g.accept (c.condition g) v fun vertex => c.answer g.id vertex
      | none => ((c.condition g).map fun _ => c.answer g.id 0, g) := by
  cases c with
  | image reference =>
      rw [build, Build.run_map, Build.run_image, vertex?, condition, fault]
      cases ImageRef.normalize reference <;> rfl
  | localDir name =>
      rw [build, Build.run_map, Build.run_localDir, Graph.accept_map, vertex?, condition, fault]
      cases Build.isLocalName name <;> rfl
  | exec base options =>
      rw [build, Build.run_map, Build.run_exec, Graph.accept_map, vertex?, condition, fault, states]
      simp only [List.forM_eq_forM, List.forM_cons, List.forM_map]
      rfl
  | copy src srcPath dest destPath flags =>
      rw [build, Build.run_map, Build.run_copy, Graph.accept_map, vertex?, condition, fault, states]
      simp only [List.forM_eq_forM, List.forM_cons, List.forM_nil]
      cases g.check src with
      | error e => rfl
      | ok _ => cases g.check dest <;> rfl
  | merge states =>
      have hcondition : (merge states).condition g = (Build.layersOf states).forM g.check := by
        rw [forM_check_layersOf]
        rfl
      rw [build, Build.run_map, Build.run_merge, hcondition, vertex?]
      simp only [answer]
      match Build.layersOf states with
      | [] => rfl
      | [layer] =>
          simp only [List.forM_eq_forM, List.forM_cons, List.forM_nil, Build.acceptLayers]
          cases g.check layer <;> rfl
      | layer :: other :: layers =>
          simp only [Build.acceptLayers]
          exact Graph.accept_map _ _ _ _ _

/-- A call that is refused leaves the graph as it is. -/
theorem run_build_of_error {c : Call} {g : Graph} {e : GraphError} (h : c.condition g = .error e) :
    c.build.run g = (.error e, g) := by
  rw [run_build, h]
  cases c.vertex? <;> rfl

/-- A call that is not refused is answered. -/
theorem run_build_of_ok {c : Call} {g : Graph} (h : c.condition g = .ok ()) :
    (∃ v, c.vertex? = some v ∧ c.build.run g = (.ok (c.answer g.id (g.intern v).1), (g.intern v).2)) ∨
      c.vertex? = none ∧ c.build.run g = (.ok (c.answer g.id 0), g) := by
  rw [run_build, h]
  cases c.vertex? with
  | some v => exact .inl ⟨v, rfl, rfl⟩
  | none => exact .inr ⟨rfl, rfl⟩

theorem fst_run_build_eq_error_iff {c : Call} {g : Graph} {e : GraphError} :
    (c.build.run g).1 = .error e ↔ c.condition g = .error e := by
  cases hcondition : c.condition g with
  | error e' => simp [run_build_of_error hcondition]
  | ok _ => rcases run_build_of_ok hcondition with ⟨v, -, h⟩ | ⟨-, h⟩ <;> simp [h]

/-- What can be had from an answer is a state of the graph behind the call. -/
theorem check_of_shows {c : Call} {g g' : Graph} {a : Answer} (h : c.build.run g = (.ok a, g')) {s : State}
    (hs : a.Shows s) : g'.check s = .ok () := by
  have hnext : c.next g = g' := by rw [← snd_run_build, h]
  rw [← hnext]
  apply Gives.check
  cases c with
  | image reference => exact .image (Build.run_of_shows h hs)
  | localDir name => exact .localDir (Build.run_of_shows h hs)
  | copy src srcPath dest destPath flags => exact .copy (Build.run_of_shows h hs)
  | merge states => exact .merge (Build.run_of_shows h hs)
  | exec base options =>
      obtain ⟨r, hr, rfl⟩ := Build.run_map_eq_ok_iff.1 h
      cases hs with
      | root => exact .root hr
      | mount hmount => exact .mount hr hmount
      | holder _ path => exact .holder hr path

end Call

namespace Graph

variable {g g' : Graph} {s : State}

/-- A state that can be had: the empty filesystem, a state of another graph, or one of this graph. -/
def Genuine (g : Graph) (s : State) : Prop := ∀ o, s.output = some o → o.graph = g.id → g.HasOutput o

/-- The state belongs to another graph. -/
def Foreign (g : Graph) (s : State) : Prop := ∃ o, s.output = some o ∧ o.graph ≠ g.id

theorem genuine_of_check (h : g.check s = .ok ()) : g.Genuine s :=
  fun o ho _ => (g.check_eq_ok_iff s).1 h o ho

theorem genuine_scratch (g : Graph) : g.Genuine .scratch := nofun

theorem Genuine.grow (h : g.Genuine s) (hgrows : g.GrowsTo g') : g'.Genuine s := by
  intro o ho hid
  obtain ⟨hid, v, hv, hindex⟩ := h o ho (hid.trans hgrows.id)
  exact ⟨hid.trans hgrows.id.symm, v, hgrows.vertex? hv, hindex⟩

theorem check_of_foreign {o : Output} (ho : s.output = some o) (hid : o.graph ≠ g.id) :
    g.check s = .error (.foreignState o.vertex o.graph) := by
  rw [check, ho]
  exact if_neg hid

/-- A state that can be had is one of the graph, or one of another graph. -/
theorem Genuine.check_cases (h : g.Genuine s) :
    g.check s = .ok () ∧ ¬g.Foreign s ∨
      ∃ o, s.output = some o ∧ o.graph ≠ g.id ∧ g.check s = .error (.foreignState o.vertex o.graph) := by
  by_cases hforeign : g.Foreign s
  · obtain ⟨o, ho, hid⟩ := hforeign
    exact .inr ⟨o, ho, hid, check_of_foreign ho hid⟩
  · refine .inl ⟨(g.check_eq_ok_iff s).2 fun o ho => h o ho ?_, hforeign⟩
    by_contra hid
    exact hforeign ⟨o, ho, hid⟩

/-- To let a graph grow does not change what it says of such a state. -/
theorem Genuine.check_grown (h : g.Genuine s) (hgrows : g.GrowsTo g') : g'.check s = g.check s := by
  rcases h.check_cases with ⟨hcheck, -⟩ | ⟨o, ho, hid, hcheck⟩
  · rw [hcheck, hgrows.check hcheck]
  · rw [hcheck, check_of_foreign ho (hgrows.id ▸ hid)]

/-- A vertex that has been interned is found again. -/
theorem GrowsTo.intern_again {v : Vertex} (h : (g.intern v).2.GrowsTo g') : g'.intern v = ((g.intern v).1, g') := by
  have hv := h.vertex? (g.vertex?_intern v)
  rcases g'.intern_cases v with ⟨i, hi, hintern⟩ | ⟨hnew, -⟩
  · rw [hintern, Prod.mk.injEq]
    exact ⟨Option.some.inj ((position?_eq_some_iff.2 hi).symm.trans (position?_eq_some_iff.2 hv)), rfl⟩
  · rw [position?_eq_some_iff.2 hv] at hnew
    cases hnew

end Graph

namespace Call

variable {c : Call} {g g' : Graph}

theorem condition_grown (hstates : ∀ s ∈ c.states, g.Genuine s) (h : g.GrowsTo g') :
    c.condition g' = c.condition g := by
  have hchecks : ∀ {ss : List State}, (∀ s ∈ ss, g.Genuine s) → ss.forM g'.check = ss.forM g.check := by
    intro ss
    induction ss with
    | nil => exact fun _ => rfl
    | cons s ss ih =>
        intro hss
        obtain ⟨hs, hss⟩ := List.forall_mem_cons.1 hss
        have hrest := ih hss
        simp only [List.forM_eq_forM] at hrest ⊢
        rw [List.forM_cons, List.forM_cons, hs.check_grown h, hrest]
  rw [condition, condition, hchecks hstates]

/-- Behind a call the same call gives the same answer or error and adds nothing, whatever has been added since. -/
theorem run_build_again (hstates : ∀ s ∈ c.states, g.Genuine s) (h : (c.next g).GrowsTo g') :
    c.build.run g' = ((c.build.run g).1, g') := by
  have hgrown := (c.growsTo_next g).trans h
  have hcondition := condition_grown hstates hgrown
  rw [← snd_run_build] at h
  cases hc : c.condition g with
  | error e =>
      rw [run_build_of_error hc]
      exact run_build_of_error (hcondition.trans hc)
  | ok _ =>
      rcases run_build_of_ok hc with ⟨v, hv, hrun⟩ | ⟨hv, hrun⟩
      · rw [hrun] at h ⊢
        rw [run_build, hcondition, hc, hv]
        simp only [Graph.accept]
        rw [h.intern_again, hgrown.id]
      · rw [hrun, run_build, hcondition, hc, hv, hgrown.id]
        rfl

end Call

end BuildGraph
