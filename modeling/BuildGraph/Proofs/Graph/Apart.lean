import BuildGraph.Proofs.Definition.Marshalable
import BuildGraph.Proofs.Graph.Answer
import Mathlib.Data.List.Induction
import Mathlib.Logic.Function.Basic

/-!
# Graphs side by side

There may be many graphs, and states of all of them are around. Positions mean nothing from one graph to the next, so a
state carries the id of its graph, and a graph refuses the states of others, wherever they stand in a call
(`Call.foreign_iff`). A call that is refused changes no graph, and a call that succeeds changes only the one that was
asked: each graph has gone through the calls that it answered itself, and nothing else (`Graph.Takes`).
-/

namespace BuildGraph

/-- Calls that succeed one after another, with their answers. -/
inductive Graph.Takes : Graph → List (Call × Answer) → Graph → Prop
  | nil (g : Graph) : Takes g [] g
  | cons {g g' g'' : Graph} {c : Call} {a : Answer} {rest : List (Call × Answer)}
      (h : c.build.run g = (.ok a, g')) (hrest : Takes g' rest g'') : Takes g ((c, a) :: rest) g''

namespace Call

variable {c : Call} {g : Graph}

theorem fault_ne_foreign (c : Call) (vertex : Nat) (graph : GraphId) :
    c.fault ≠ .error (.foreignState vertex graph) := by
  intro h
  cases c with
  | image reference =>
      rw [fault] at h
      split at h <;> cases h
  | localDir name =>
      rw [fault] at h
      split at h <;> cases h
  | exec base options =>
      rw [fault, Build.checkProgram] at h
      split at h <;> cases h
  | copy | merge => cases h

/-- Nothing else is wrong with a call that has states, if a run has a program. -/
theorem fault_eq_ok (hprogram : ∀ base options, c = .exec base options → hasProgram options.args = true)
    {s : State} (hs : s ∈ c.states) : c.fault = .ok () := by
  cases c with
  | image | localDir => cases hs
  | exec base options => rw [fault, Build.checkProgram, if_pos (hprogram base options rfl)]
  | copy | merge => rfl

/-- States that can be had pass, or the error is that of one that belongs to another graph. -/
theorem forM_check_cases {ss : List State} (h : ∀ s ∈ ss, g.Genuine s) :
    ss.forM g.check = .ok () ∧ (∀ s ∈ ss, ¬g.Foreign s) ∨
      (∃ s ∈ ss, g.Foreign s) ∧ ∃ vertex graph, ss.forM g.check = .error (.foreignState vertex graph) := by
  cases hchecks : ss.forM g.check with
  | ok _ =>
      refine .inl ⟨rfl, ?_⟩
      rintro s hs ⟨o, ho, hid⟩
      have hok := forM_eq_ok_iff.1 hchecks s hs
      rw [Graph.check_of_foreign ho hid] at hok
      cases hok
  | error e =>
      obtain ⟨before, s, after, hss, -, hcheck⟩ := forM_eq_error_iff.1 hchecks
      have hs : s ∈ ss := hss ▸ List.mem_append_right before List.mem_cons_self
      rcases (h s hs).check_cases with ⟨hok, -⟩ | ⟨o, ho, hid, hforeign⟩
      · rw [hok] at hcheck
        cases hcheck
      · exact .inr ⟨⟨s, hs, o, ho, hid⟩, o.vertex, o.graph, hcheck.symm.trans hforeign⟩

/-- A call fails for a state of another graph just if it is given one. -/
theorem foreign_iff (hstates : ∀ s ∈ c.states, g.Genuine s)
    (hprogram : ∀ base options, c = .exec base options → hasProgram options.args = true) :
    (∃ vertex graph, (c.build.run g).1 = .error (.foreignState vertex graph)) ↔ ∃ s ∈ c.states, g.Foreign s := by
  simp only [fst_run_build_eq_error_iff, condition, check_bind_eq_error_iff]
  rcases forM_check_cases hstates with ⟨hok, hnone⟩ | ⟨⟨s, hs, hforeign⟩, vertex, graph, herror⟩
  · refine iff_of_false ?_ ?_
    · rintro ⟨vertex, graph, hfault | ⟨-, herror⟩⟩
      · exact c.fault_ne_foreign vertex graph hfault
      · rw [hok] at herror
        cases herror
    · rintro ⟨s, hs, hforeign⟩
      exact hnone s hs hforeign
  · exact iff_of_true ⟨vertex, graph, .inr ⟨fault_eq_ok hprogram hs, herror⟩⟩ ⟨s, hs, hforeign⟩

end Call

namespace Graph

variable {g : Graph} {s : State}

theorem check_foreign_iff :
    (∃ vertex graph, g.check s = .error (.foreignState vertex graph)) ↔ g.Foreign s := by
  constructor
  · rintro ⟨vertex, graph, h⟩
    rw [check] at h
    split at h
    · cases h
    · rename_i o ho
      refine ⟨o, ho, fun hid => ?_⟩
      rw [if_pos hid] at h
      split at h
      · cases h
      · split at h <;> cases h
  · rintro ⟨o, ho, hid⟩
    exact ⟨o.vertex, o.graph, check_of_foreign ho hid⟩

/-- To marshal a state fails for its graph just if that is another one. -/
theorem marshal_foreign_iff (hg : g.Sound) (platform : Platform) :
    (∃ vertex graph, marshal g s platform = .error (.root (.foreignState vertex graph))) ↔ g.Foreign s := by
  rw [← check_foreign_iff]
  cases hcheck : g.check s with
  | error e => simp only [marshal_of_refused hcheck, Except.error.injEq, MarshalError.root.injEq]
  | ok _ =>
      refine iff_of_false ?_ nofun
      rintro ⟨vertex, graph, h⟩
      cases hs : s.output with
      | none =>
          rw [marshal_scratch g hs] at h
          cases h
      | some o =>
          rcases marshal_cases hg hs ((g.check_eq_ok_iff s).1 hcheck o hs) platform with
            ⟨d, hd⟩ | ⟨m, v, reason, -, -, -, hinvalid⟩
          · rw [hd] at h
            cases h
          · rw [hinvalid] at h
            cases h

end Graph

/-- Graphs, each under its own id. -/
structure Graphs where
  graph : GraphId → Graph
  id_graph : ∀ id, (graph id).id = id

/-- A call, and the graph that it is made to. -/
structure Request where
  graph : GraphId
  call : Call

namespace Graphs

@[ext] theorem ext {w w' : Graphs} (h : ∀ id, w.graph id = w'.graph id) : w = w' := by
  obtain ⟨graph, hid⟩ := w
  obtain ⟨graph', hid'⟩ := w'
  obtain rfl : graph = graph' := funext h
  rfl

def empty : Graphs := ⟨Graph.empty, fun _ => rfl⟩

def answer (w : Graphs) (r : Request) : Except GraphError Answer := (r.call.build.run (w.graph r.graph)).1

/-- The graphs behind a request, of which one may have changed. -/
def next (w : Graphs) (r : Request) : Graphs where
  graph := Function.update w.graph r.graph (r.call.next (w.graph r.graph))
  id_graph := by
    intro id
    by_cases h : id = r.graph
    · rw [h, Function.update_self, (r.call.growsTo_next _).id, w.id_graph]
    · rw [Function.update_of_ne h, w.id_graph]

def run (w : Graphs) (rs : List Request) : Graphs := rs.foldl next w

/-- The calls that one graph has been asked for with success, and its answers, in order. -/
def succeeded (id : GraphId) : Graphs → List Request → List (Call × Answer)
  | _, [] => []
  | w, r :: rs =>
    match w.answer r with
    | .ok a => if r.graph = id then (r.call, a) :: succeeded id (w.next r) rs else succeeded id (w.next r) rs
    | .error _ => succeeded id (w.next r) rs

/-- The states that can be had once some requests have been made, of whichever graphs. -/
inductive Given : List Request → State → Prop
  | scratch {rs : List Request} : Given rs .scratch
  | answer {before after : List Request} {r : Request} {a : Answer} (h : (empty.run before).answer r = .ok a)
      {s : State} (hs : a.Shows s) : Given (before ++ r :: after) s
  | withDir {rs : List Request} {s : State} (h : Given rs s) (dir : String) : Given rs (s.withDir dir)
  | withEnv {rs : List Request} {s : State} (h : Given rs s) (key value : String) : Given rs (s.withEnv key value)

variable {w : Graphs} {r : Request}

theorem run_append (w : Graphs) (rs rs' : List Request) : w.run (rs ++ rs') = (w.run rs).run rs' := List.foldl_append

theorem run_concat (w : Graphs) (rs : List Request) (r : Request) : w.run (rs ++ [r]) = (w.run rs).next r :=
  List.foldl_concat ..

theorem graph_next_self (w : Graphs) (r : Request) :
    (w.next r).graph r.graph = r.call.next (w.graph r.graph) := Function.update_self ..

theorem graph_next_of_ne {id : GraphId} (h : id ≠ r.graph) : (w.next r).graph id = w.graph id :=
  Function.update_of_ne h ..

/-- A request that succeeds leaves its graph as its call does. -/
theorem run_build_of_answer {a : Answer} (h : w.answer r = .ok a) :
    r.call.build.run (w.graph r.graph) = (.ok a, (w.next r).graph r.graph) := by
  rw [graph_next_self, ← Call.snd_run_build]
  exact Prod.ext h rfl

/-- A request that fails leaves all graphs as they are. -/
theorem next_of_error {e : GraphError} (h : w.answer r = .error e) : w.next r = w := by
  have hsame : r.call.next (w.graph r.graph) = w.graph r.graph := by
    rw [← Call.snd_run_build, Call.run_build_of_error (Call.fst_run_build_eq_error_iff.1 h)]
  ext id
  by_cases hid : id = r.graph
  · rw [hid, graph_next_self, hsame]
  · rw [graph_next_of_ne hid]

theorem growsTo_next (w : Graphs) (r : Request) (id : GraphId) : (w.graph id).GrowsTo ((w.next r).graph id) := by
  by_cases hid : id = r.graph
  · rw [hid, graph_next_self]
    exact r.call.growsTo_next _
  · rw [graph_next_of_ne hid]
    exact .refl _

theorem growsTo_run (w : Graphs) (rs : List Request) (id : GraphId) : (w.graph id).GrowsTo ((w.run rs).graph id) := by
  induction rs generalizing w with
  | nil => exact .refl _
  | cons r rs ih => exact (w.growsTo_next r id).trans (ih (w.next r))

/-- Each graph has gone through its own successful calls. -/
theorem takes_succeeded (w : Graphs) (rs : List Request) (id : GraphId) :
    (w.graph id).Takes (succeeded id w rs) ((w.run rs).graph id) := by
  induction rs generalizing w with
  | nil => exact .nil _
  | cons r rs ih =>
      have hrest := ih (w.next r)
      rw [succeeded]
      cases hanswer : w.answer r with
      | error e =>
          rw [next_of_error hanswer] at hrest ⊢
          rwa [run, List.foldl_cons, next_of_error hanswer]
      | ok a =>
          dsimp only
          split
          · rename_i hid
            subst hid
            exact .cons (run_build_of_answer hanswer) hrest
          · rename_i hid
            rwa [graph_next_of_ne (Ne.symm hid)] at hrest

theorem reachable_run (rs : List Request) (id : GraphId) : ((empty.run rs).graph id).Reachable := by
  induction rs using List.reverseRecOn with
  | nil => exact .empty id
  | append_singleton rs r ih =>
      rw [run_concat]
      by_cases hid : id = r.graph
      · subst hid
        rw [graph_next_self]
        exact ih.call r.call
      · rwa [graph_next_of_ne hid]

/-- A state that can be had is one of its graph. -/
theorem Given.check {rs : List Request} {s : State} (h : Given rs s) :
    ∀ o, s.output = some o → ((empty.run rs).graph o.graph).check s = .ok () := by
  induction h with
  | scratch => nofun
  | @answer before after r a h s hs =>
      intro o ho
      have hcheck := Call.check_of_shows (run_build_of_answer h) hs
      have hid : o.graph = r.graph := ((Graph.check_eq_ok_iff _ s).1 hcheck o ho).1.trans (id_graph _ _)
      rw [hid, run_append]
      exact (growsTo_run _ after r.graph).check hcheck
  | withDir _ dir ih => exact ih
  | withEnv _ key value ih => exact ih

theorem Given.genuine {rs : List Request} {s : State} (h : Given rs s) (id : GraphId) :
    ((empty.run rs).graph id).Genuine s := by
  intro o ho hid
  rw [id_graph] at hid
  exact (Graph.check_eq_ok_iff _ s).1 (hid ▸ h.check o ho) o ho

end Graphs

/-- Any requests have been made, to any graphs and with any states. What fails now changes nothing. A call fails for a
state of another graph just if it is given one, and so does the marshaling of a state. And each graph is as if it had
been asked just for what it has answered. -/
theorem graphs_apart (rs : List Request) :
    (∀ r e, (Graphs.empty.run rs).answer r = .error e → (Graphs.empty.run rs).next r = Graphs.empty.run rs) ∧
      (∀ r, (∀ s ∈ r.call.states, Graphs.Given rs s) →
        (∀ base options, r.call = .exec base options → hasProgram options.args = true) →
        ((∃ vertex graph, (Graphs.empty.run rs).answer r = .error (.foreignState vertex graph)) ↔
          ∃ s ∈ r.call.states, ∃ o, s.output = some o ∧ o.graph ≠ r.graph)) ∧
      (∀ id s platform,
        (∃ vertex graph, marshal ((Graphs.empty.run rs).graph id) s platform =
          .error (.root (.foreignState vertex graph))) ↔ ∃ o, s.output = some o ∧ o.graph ≠ id) ∧
      ∀ id, (Graph.empty id).Takes (Graphs.succeeded id .empty rs) ((Graphs.empty.run rs).graph id) := by
  refine ⟨fun r e h => Graphs.next_of_error h, fun r hstates hprogram => ?_, fun id s platform => ?_,
    fun id => Graphs.takes_succeeded .empty rs id⟩
  · have hforeign := Call.foreign_iff (fun s hs => (hstates s hs).genuine r.graph) hprogram
    simp only [Graph.Foreign, Graphs.id_graph] at hforeign
    exact hforeign
  · have hforeign := Graph.marshal_foreign_iff (s := s) (Graphs.reachable_run rs id).sound platform
    rwa [Graph.Foreign, Graphs.id_graph] at hforeign

/-- An output of the first vertex of a graph. Which graph that is makes all the difference. -/
def firstState (id : GraphId) : State := .ofOutput ⟨id, 0, 0⟩

/-- Two graphs are asked in turn. The first refuses a mount out of the second, and runs its process without. -/
def twoGraphs : List Request :=
  [⟨⟨0⟩, .image "alpine"⟩, ⟨⟨1⟩, .localDir "src"⟩,
    ⟨⟨0⟩, .exec (firstState ⟨0⟩)
      { RunOptions.ofArgs ["make"] with mounts := [⟨"/src", firstState ⟨1⟩, none, false⟩] }⟩,
    ⟨⟨0⟩, .exec (firstState ⟨0⟩) (.ofArgs ["make"])⟩]

theorem given_firstState : Graphs.Given twoGraphs (firstState ⟨0⟩) ∧ Graphs.Given twoGraphs (firstState ⟨1⟩) :=
  ⟨@Graphs.Given.answer [] _ _ _ rfl _ (.state _), @Graphs.Given.answer [⟨⟨0⟩, .image "alpine"⟩] _ _ _ rfl _ (.state _)⟩

theorem graphs_apart_two :
    (∃ vertex graph, (Graphs.empty.run twoGraphs).answer ⟨⟨0⟩, .merge [firstState ⟨0⟩, .scratch, firstState ⟨1⟩]⟩ =
        .error (.foreignState vertex graph)) ∧
      (Graph.empty ⟨0⟩).Takes
        [(.image "alpine", .state (firstState ⟨0⟩)),
          (.exec (firstState ⟨0⟩) (.ofArgs ["make"]), .run ⟨⟨0⟩, 1, .ofOutput ⟨⟨0⟩, 1, 0⟩, []⟩)]
        ((Graphs.empty.run twoGraphs).graph ⟨0⟩) ∧
      (Graph.empty ⟨1⟩).Takes [(.localDir "src", .state (firstState ⟨1⟩))]
        ((Graphs.empty.run twoGraphs).graph ⟨1⟩) := by
  obtain ⟨-, hforeign, -, htakes⟩ := graphs_apart twoGraphs
  have hstates : ∀ s ∈ [firstState ⟨0⟩, .scratch, firstState ⟨1⟩], Graphs.Given twoGraphs s :=
    List.forall_mem_cons.2 ⟨given_firstState.1, List.forall_mem_cons.2 ⟨.scratch,
      List.forall_mem_singleton.2 given_firstState.2⟩⟩
  refine ⟨(hforeign ⟨⟨0⟩, .merge _⟩ hstates nofun).2 ?_, htakes ⟨0⟩, htakes ⟨1⟩⟩
  exact ⟨firstState ⟨1⟩, List.mem_of_getLast? rfl, _, rfl, by decide⟩

end BuildGraph
