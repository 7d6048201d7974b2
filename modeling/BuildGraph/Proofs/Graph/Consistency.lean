import BuildGraph.Proofs.Graph.Growth
import BuildGraph.Proofs.Graph.Inputs
import BuildGraph.Proofs.Lists

/-!
# What holds of a graph after any calls

A call leaves the graph as it is or interns one vertex that is tidy (`Call.next_eq`), so what is kept by interning
such a vertex holds of every graph that calls lead to (`Graph.Consistent`).

Whatever a call gives, also by way of a run's mounts or with another directory and environment, is a state of
the graph that the call leads to (`Call.Gives.check`). Graphs only grow, so it stays one.
-/

namespace BuildGraph

namespace Graph

/-- Vertices differ, and the table of positions has each of them just where it is. A vertex reads what is in front
of it and is tidy, and a process has its mounts in order. -/
structure Consistent (g : Graph) : Prop extends g.Sound where
  nodup : g.vertices.Nodup
  lookup : ∀ v i, g.index.lookup v = some i ↔ g.vertex? i = some v
  tidy : ∀ v ∈ g.vertices, v.Tidy
  ordered : ∀ v ∈ g.vertices, ∀ e, v.op = .exec e → e.Ordered

theorem consistent_of_sound {g : Graph} (hg : g.Sound) (htidy : ∀ v ∈ g.vertices, v.Tidy)
    (hordered : ∀ v ∈ g.vertices, ∀ e, v.op = .exec e → e.Ordered) : g.Consistent where
  toSound := hg
  nodup := g.nodup
  lookup := g.found
  tidy := htidy
  ordered := hordered

theorem consistent_empty (id : GraphId) : (empty id).Consistent :=
  consistent_of_sound (sound_empty id) (fun _ hv => absurd hv List.not_mem_nil)
    fun _ hv => absurd hv List.not_mem_nil

theorem mem_vertices_intern {g : Graph} {v w : Vertex} (hw : w ∈ (g.intern v).2.vertices) :
    w ∈ g.vertices ∨ w = v := by
  rcases g.intern_cases v with ⟨i, -, h⟩ | ⟨hnew, h⟩
  · rw [h] at hw
    exact .inl hw
  · rw [h] at hw
    exact (List.mem_append.1 hw).imp_right List.mem_singleton.1

theorem accept_eq {ε α : Type} (g : Graph) (condition : Except ε Unit) (v : Vertex) (answer : Nat → α) :
    (g.accept condition v answer).2 = g ∨ (g.accept condition v answer).2 = (g.intern v).2 := by
  unfold accept
  split
  · exact .inl rfl
  · exact .inr rfl

end Graph

namespace Call

/-- A call leaves the graph as it is, or interns what calls build. -/
theorem next_eq (c : Call) (g : Graph) :
    c.next g = g ∨ ∃ v : Vertex, v.Built ∧ c.next g = (g.intern v).2 := by
  have haccept : ∀ {ε α : Type} {condition : Except ε Unit} {v : Vertex} {answer : Nat → α}, v.Built →
      (g.accept condition v answer).2 = g ∨
        ∃ w : Vertex, w.Built ∧ (g.accept condition v answer).2 = (g.intern w).2 := by
    intro ε α condition v answer hv
    exact (g.accept_eq condition v answer).imp_right fun h => ⟨v, hv, h⟩
  cases c with
  | image reference =>
      rw [next, Build.run_image]
      split
      · exact .inl rfl
      · exact haccept (.source _)
  | localDir name =>
      rw [next, Build.run_localDir]
      exact haccept (.source _)
  | exec base options =>
      rw [next, Build.run_exec]
      exact haccept (.exec _ _)
  | copy src srcPath dest destPath flags =>
      rw [next, Build.run_copy]
      exact haccept (.copy _ _ _ _ _)
  | merge states =>
      rw [next, Build.run_merge]
      unfold Build.acceptLayers
      split
      · exact .inl rfl
      · exact .inl rfl
      · exact haccept (.merge _)

theorem growsTo_next (c : Call) (g : Graph) : g.GrowsTo (c.next g) := by
  rcases c.next_eq g with h | ⟨v, -, h⟩
  · rw [h]
    exact .refl g
  · rw [h]
    exact .intern g v

theorem growsTo_calls (cs : List Call) (g : Graph) : g.GrowsTo (cs.foldl next g) := by
  induction cs generalizing g with
  | nil => exact .refl g
  | cons c cs ih => exact (c.growsTo_next g).trans (ih (c.next g))

end Call

namespace Graph

theorem Consistent.next {g : Graph} (hg : g.Consistent) (c : Call) : (c.next g).Consistent := by
  have hbuilt : ∀ v ∈ (c.next g).vertices, v ∈ g.vertices ∨ v.Built := by
    intro v hv
    rcases c.next_eq g with h | ⟨w, hw, h⟩
    · exact .inl (h ▸ hv)
    · rw [h] at hv
      rcases mem_vertices_intern hv with hv | rfl
      · exact .inl hv
      · exact .inr hw
  apply consistent_of_sound (hg.toSound.next c)
  · intro v hv
    exact (hbuilt v hv).elim (hg.tidy v) fun h => h.tidy
  · intro v hv e he
    exact (hbuilt v hv).elim (fun hold => hg.ordered v hold e he) fun h => h.ordered he

theorem Consistent.calls {g : Graph} (hg : g.Consistent) (cs : List Call) :
    (cs.foldl Call.next g).Consistent := by
  induction cs generalizing g with
  | nil => exact hg
  | cons c cs ih => exact ih (hg.next c)

theorem GrowsTo.check {g g' : Graph} (h : g.GrowsTo g') {s : State} (hs : g.check s = .ok ()) :
    g'.check s = .ok () := by
  rw [check_eq_ok_iff] at hs ⊢
  intro o ho
  obtain ⟨hid, v, hv, hindex⟩ := hs o ho
  exact ⟨hid.trans h.id.symm, v, h.vertex? hv, hindex⟩

/-- An output of a vertex that has been interned. -/
theorem check_intern {g : Graph} {v : Vertex} {s : State} {index : Nat}
    (hs : s.output = some (g.output (g.intern v).1 index)) (hindex : index < v.op.outputCount) :
    (g.intern v).2.check s = .ok () := by
  rw [check_eq_ok_iff, hs]
  intro o ho
  obtain rfl := Option.some.inj ho
  exact ⟨(g.id_intern v).symm, v, g.vertex?_intern v, hindex⟩

end Graph

/-- The deepest holder is one of those that were looked at. -/
theorem mem_of_deepest?_eq_some {holders : List Holder} {h : Holder} (hdeepest : deepest? holders = some h) :
    h ∈ holders := by
  unfold deepest? at hdeepest
  have hfold := mem_of_foldl_eq_some (fun best x => ?_) hdeepest
  · exact hfold.resolve_left nofun
  · cases best with
    | none => exact .inr rfl
    | some b =>
        dsimp only
        split
        · exact .inr rfl
        · exact .inl rfl

namespace RunResult

theorem mount_eq_ok {r : RunResult} {target : String} {s : State} (h : r.mount target = .ok s) :
    ∃ m ∈ r.mounts, ∃ index, m.output = some index ∧ s = r.output index := by
  unfold mount at h
  split at h
  · cases h
  · rename_i m hm
    split at h
    · rename_i index hindex
      exact ⟨m, List.mem_of_find?_eq_some hm, index, hindex, (Except.ok.inj h).symm⟩
    · cases h

/-- A path is held by a mount that can be written, or by the root. -/
theorem holder_eq (r : RunResult) (path : String) :
    (r.holder path).1 = r.root ∨
      ∃ m ∈ r.mounts, ∃ index, m.output = some index ∧ (r.holder path).1 = r.output index := by
  unfold holder
  split
  · rename_i h hdeepest
    obtain ⟨m, hm, hholder⟩ := List.mem_filterMap.1 (mem_of_deepest?_eq_some hdeepest)
    obtain ⟨index, hindex, hholder⟩ := Option.bind_eq_some_iff.1 hholder
    obtain ⟨rest, -, hholder⟩ := Option.bind_eq_some_iff.1 hholder
    obtain rfl := Option.some.inj hholder
    exact .inr ⟨m, hm, index, hindex, rfl⟩
  · exact .inl rfl

end RunResult

namespace Call

/-- The states that a call gives on a graph: its answer, the filesystems of a run's mounts and those that hold a
path after the run, and all of these with another directory or another environment. -/
inductive Gives (g : Graph) : Call → State → Prop
  | image {reference : String} {s : State} {g' : Graph} (h : (Build.image reference).run g = (.ok s, g')) :
      Gives g (.image reference) s
  | localDir {name : String} {s : State} {g' : Graph} (h : (Build.localDir name).run g = (.ok s, g')) :
      Gives g (.localDir name) s
  | root {base : State} {options : RunOptions} {r : RunResult} {g' : Graph}
      (h : (Build.exec base options).run g = (.ok r, g')) : Gives g (.exec base options) r.root
  | mount {base : State} {options : RunOptions} {r : RunResult} {g' : Graph}
      (h : (Build.exec base options).run g = (.ok r, g')) {target : String} {s : State}
      (hs : r.mount target = .ok s) : Gives g (.exec base options) s
  | holder {base : State} {options : RunOptions} {r : RunResult} {g' : Graph}
      (h : (Build.exec base options).run g = (.ok r, g')) (path : String) :
      Gives g (.exec base options) (r.holder path).1
  | copy {src dest s : State} {srcPath destPath : String} {flags : CopyFlags} {g' : Graph}
      (h : (Build.copy src srcPath dest destPath flags).run g = (.ok s, g')) :
      Gives g (.copy src srcPath dest destPath flags) s
  | merge {states : List State} {s : State} {g' : Graph} (h : (Build.merge states).run g = (.ok s, g')) :
      Gives g (.merge states) s
  | withDir {c : Call} {s : State} (h : Gives g c s) (dir : String) : Gives g c (s.withDir dir)
  | withEnv {c : Call} {s : State} (h : Gives g c s) (key value : String) :
      Gives g c (s.withEnv key value)

variable {g g' : Graph}

/-- A source that has been answered is a state of the graph. -/
theorem check_source {condition : Except GraphError Unit} {source : Source} {s : State}
    (h : g.accept condition ⟨.source source, []⟩ (fun vertex => .ofOutput (g.output vertex 0)) = (.ok s, g')) :
    g'.check s = .ok () := by
  obtain ⟨rfl, rfl⟩ := Graph.accept_eq_ok h
  exact Graph.check_intern rfl Nat.one_pos

/-- The root of a run and the outputs of its mounts are states of the graph. -/
theorem check_exec {base : State} {options : RunOptions} {r : RunResult}
    (h : (Build.exec base options).run g = (.ok r, g')) :
    g'.check r.root = .ok () ∧
      ∀ m ∈ r.mounts, ∀ index, m.output = some index → g'.check (r.output index) = .ok () := by
  rw [Build.run_exec] at h
  obtain ⟨rfl, rfl⟩ := Graph.accept_eq_ok h
  have hcount := outputCount_runVertex base options
  constructor
  · apply Graph.check_intern rfl
    omega
  · intro m hm index hindex
    apply Graph.check_intern rfl
    rw [hcount]
    exact output_mountResults hm hindex

theorem check_merge {states : List State} {s : State} (h : (Build.merge states).run g = (.ok s, g')) :
    g'.check s = .ok () := by
  rw [Build.run_merge] at h
  unfold Build.acceptLayers at h
  split at h
  · cases h
    rfl
  · rename_i layer _
    cases hlayer : g.check layer with
    | error e =>
        rw [hlayer] at h
        cases h
    | ok u =>
        rw [hlayer] at h
        cases h
        exact hlayer
  · obtain ⟨rfl, rfl⟩ := Graph.accept_eq_ok h
    exact Graph.check_intern rfl Nat.one_pos

/-- What a call gives is a state of the graph behind the call. -/
theorem Gives.check {c : Call} {s : State} (h : c.Gives g s) : (c.next g).check s = .ok () := by
  induction h with
  | image h =>
      rw [next, h]
      rw [Build.run_image] at h
      split at h
      · cases h
      · exact check_source h
  | localDir h =>
      rw [next, h]
      rw [Build.run_localDir] at h
      exact check_source h
  | root h =>
      rw [next, h]
      exact (check_exec h).1
  | mount h hs =>
      obtain ⟨m, hm, index, hindex, rfl⟩ := RunResult.mount_eq_ok hs
      rw [next, h]
      exact (check_exec h).2 m hm index hindex
  | @holder base options r _ h path =>
      rw [next, h]
      rcases r.holder_eq path with hroot | ⟨m, hm, index, hindex, houtput⟩
      · rw [hroot]
        exact (check_exec h).1
      · rw [houtput]
        exact (check_exec h).2 m hm index hindex
  | copy h =>
      rw [next, h]
      rw [Build.run_copy] at h
      obtain ⟨rfl, rfl⟩ := Graph.accept_eq_ok h
      exact Graph.check_intern rfl Nat.one_pos
  | merge h =>
      rw [next, h]
      exact check_merge h
  | withDir _ dir ih => exact ih
  | withEnv _ key value ih => exact ih

end Call

namespace Graph

/-- After any calls, of which some may have failed and which may have been given any states, a graph is
consistent. Every state that one of the calls has given is a state of the graph, however many calls have
followed. -/
theorem consistent_calls (id : GraphId) (calls : List Call) :
    (calls.foldl Call.next (.empty id)).Consistent ∧
      ∀ before c after s, calls = before ++ c :: after → c.Gives (before.foldl Call.next (.empty id)) s →
        (calls.foldl Call.next (.empty id)).check s = .ok () := by
  refine ⟨(consistent_empty id).calls calls, ?_⟩
  intro before c after s hcalls hs
  rw [hcalls, List.foldl_append, List.foldl_cons]
  exact (Call.growsTo_calls after _).check hs.check

/-- A process that runs over an image with a directory mounted. -/
def makeCall : Call :=
  .exec (.ofOutput ⟨⟨0⟩, 0, 0⟩)
    { RunOptions.ofArgs ["make"] with mounts := [⟨"/src", .ofOutput ⟨⟨0⟩, 1, 0⟩, none, false⟩] }

/-- A copy that is refused, since it is out of another graph, and a merge. -/
def furtherCalls : List Call :=
  [.copy (.ofOutput ⟨⟨1⟩, 0, 0⟩) "/a" .scratch "/b" .plain,
    .merge [.ofOutput ⟨⟨0⟩, 2, 0⟩, .ofOutput ⟨⟨0⟩, 1, 0⟩]]

/-- What the process has left in the directory is a state of the graph behind further calls. -/
theorem consistent_calls_make :
    makeCall.Gives ([Call.image "alpine", .localDir "src"].foldl Call.next (.empty ⟨0⟩))
        ((State.ofOutput ⟨⟨0⟩, 2, 1⟩).withDir "bin") ∧
      (([Call.image "alpine", .localDir "src"] ++ makeCall :: furtherCalls).foldl Call.next (.empty ⟨0⟩)).check
        ((State.ofOutput ⟨⟨0⟩, 2, 1⟩).withDir "bin") = .ok () := by
  have hmount : RunResult.mount ⟨⟨0⟩, 2, .ofOutput ⟨⟨0⟩, 2, 0⟩, [⟨"/src", some 1⟩]⟩ "/src" =
      .ok (.ofOutput ⟨⟨0⟩, 2, 1⟩) := rfl
  have hgives : makeCall.Gives ([Call.image "alpine", .localDir "src"].foldl Call.next (.empty ⟨0⟩))
      ((State.ofOutput ⟨⟨0⟩, 2, 1⟩).withDir "bin") := .withDir (.mount rfl hmount) "bin"
  exact ⟨hgives, (consistent_calls ⟨0⟩ _).2 _ _ furtherCalls _ rfl hgives⟩

end Graph

end BuildGraph
