import BuildGraph.Graph.Layer
import BuildGraph.Graph.Run
import Mathlib.Data.List.Basic

/-!
# What a call does to a graph

A graph is made by calls for images, local directories, runs, copies and merges. Each of them looks at its
arguments first. If it refuses them the graph stays as it is, otherwise one vertex is interned (`Graph.accept`);
only a merge of fewer than two filesystems has nothing to intern. The equations `Build.run_image` and so on say
this of each call, so nothing behind them has to look into a build again.

`Graph.Reachable` holds of the graphs that calls lead to. The states in a call are any states, also those of
other graphs and those that no graph has: it is for the call to refuse them.
-/

namespace BuildGraph

variable {ε α β : Type}

/-- A vertex is added on condition. The answer is made from its position. -/
def Graph.accept (g : Graph) (condition : Except ε Unit) (v : Vertex) (answer : Nat → α) :
    Except ε α × Graph :=
  match condition with
  | .error e => (.error e, g)
  | .ok () => (.ok (answer (g.intern v).1), (g.intern v).2)

theorem Graph.accept_eq_ok {g g' : Graph} {condition : Except ε Unit} {v : Vertex} {answer : Nat → α} {a : α}
    (h : g.accept condition v answer = (.ok a, g')) : a = answer (g.intern v).1 ∧ g' = (g.intern v).2 := by
  unfold accept at h
  split at h
  · cases h
  · cases h
    exact ⟨rfl, rfl⟩

@[simp] theorem Graph.id_intern (g : Graph) (v : Vertex) : (g.intern v).2.id = g.id := by
  unfold Graph.intern
  split <;> rfl

namespace Build

theorem run_bind (b : Build ε α) (f : α → Build ε β) (g : Graph) :
    (b >>= f).run g =
      match b.run g with
      | (.ok a, g) => (f a).run g
      | (.error e, g) => (.error e, g) := rfl

@[simp] theorem run_check (s : State) (g : Graph) : (check s).run g = (g.check s, g) := rfl

@[simp] theorem run_ofExcept (x : Except ε α) (g : Graph) : (ofExcept x).run g = (x, g) := rfl

theorem run_inspect (f : Graph → Except ε α) (g : Graph) : (inspect f).run g = (f g, g) := rfl

theorem run_mapError {ε' : Type} (f : ε → ε') (b : Build ε α) (g : Graph) :
    (b.mapError f).run g = ((b.run g).1.mapError f, (b.run g).2) := by
  simp only [run, mapError]
  split <;> rename_i h <;> rw [h] <;> rfl

theorem run_intern (v : Vertex) (g : Graph) :
    (intern v : Build ε Nat).run g = (.ok (g.intern v).1, (g.intern v).2) := rfl

theorem run_output (vertex index : Nat) (g : Graph) :
    (output vertex index : Build ε Output).run g = (.ok (g.output vertex index), g) := rfl

theorem run_forM_check {ι : Type} (xs : List ι) (f : ι → State) (g : Graph) :
    (xs.forM fun x => check (f x)).run g = (xs.forM fun x => g.check (f x), g) := by
  induction xs with
  | nil => rfl
  | cons x xs ih =>
      simp only [List.forM_eq_forM, List.forM_cons, run_bind, run_check] at ih ⊢
      cases g.check (f x) with
      | error e => rfl
      | ok u => exact ih

theorem run_source (s : Source) (g : Graph) :
    (source s).run g = g.accept (.ok ()) ⟨.source s, []⟩ fun vertex => .ofOutput (g.output vertex 0) := by
  simp only [source, run_bind, run_intern, run_output, Graph.accept, Graph.output, Graph.id_intern]
  rfl

theorem run_image (reference : String) (g : Graph) :
    (image reference).run g =
      match ImageRef.normalize reference with
      | .error problem => (.error (.invalidImageRef reference problem), g)
      | .ok name =>
          g.accept (.ok ()) ⟨.source ⟨"docker-image://" ++ name, .empty⟩, []⟩
            fun vertex => .ofOutput (g.output vertex 0) := by
  unfold image
  cases ImageRef.normalize reference with
  | error problem => rfl
  | ok name => exact run_source _ g

theorem run_localDir (name : String) (g : Graph) :
    (localDir name).run g =
      g.accept (if isLocalName name then .ok () else .error (.invalidLocalName name))
        ⟨.source ⟨"local://" ++ name, .ofList [(localHint, name)]⟩, []⟩
        fun vertex => .ofOutput (g.output vertex 0) := by
  unfold localDir
  cases isLocalName name with
  | false => rfl
  | true => exact run_source _ g

theorem run_copy (src : State) (srcPath : String) (dest : State) (destPath : String)
    (flags : CopyFlags) (g : Graph) :
    (copy src srcPath dest destPath flags).run g =
      g.accept (do g.check src; g.check dest) (copyVertex src srcPath dest destPath flags)
        fun vertex => ⟨some (g.output vertex 0), dest.setting⟩ := by
  simp only [copy, run_bind, run_check]
  cases g.check src with
  | error e => rfl
  | ok u =>
      dsimp only
      cases g.check dest with
      | error e => rfl
      | ok u =>
          simp only [run_intern, run_output, Graph.output, Graph.id_intern]
          rfl

/-- A run is refused if it has no program. -/
def checkProgram (args : List String) : Except GraphError Unit :=
  if hasProgram args then .ok () else .error .emptyArgs

theorem run_exec (base : State) (options : RunOptions) (g : Graph) :
    (exec base options).run g =
      g.accept
        (do
          checkProgram options.args
          g.check base
          options.mounts.forM fun m => g.check m.source)
        (runVertex base options)
        fun vertex =>
          ⟨g.id, vertex, ⟨some (g.output vertex 0), base.setting⟩, mountResults 1 options.mounts⟩ := by
  unfold exec checkProgram
  cases hasProgram options.args with
  | false => rfl
  | true =>
      simp only [run_bind, run_check, run_forM_check, Bool.not_true, Bool.false_eq_true, if_false]
      cases g.check base with
      | error e => rfl
      | ok u =>
          dsimp only
          cases (options.mounts.forM fun m => g.check m.source) with
          | error e => rfl
          | ok u =>
              simp only [run_intern, run_output, Graph.output, Graph.id_intern]
              rfl

/-- The filesystems that count in a merge. -/
def layersOf (states : List State) : List State := states.filter fun s => !s.isScratch

/-- What comes of a merge of filesystems that count. -/
def acceptLayers (g : Graph) : List State → Except GraphError State × Graph
  | [] => (.ok .scratch, g)
  | [layer] => ((g.check layer).map fun _ => layer, g)
  | layers =>
      g.accept (layers.forM g.check) (mergeVertex layers) fun vertex => .ofOutput (g.output vertex 0)

theorem run_merge (states : List State) (g : Graph) :
    (merge states).run g = acceptLayers g (layersOf states) := by
  unfold merge
  rw [← layersOf]
  have hcheck := run_forM_check (layersOf states) id g
  simp only [id] at hcheck
  simp only [run_bind, hcheck]
  match layersOf states with
  | [] => rfl
  | [layer] =>
      simp only [List.forM_eq_forM, List.forM_cons, List.forM_nil, acceptLayers]
      cases g.check layer <;> rfl
  | layer :: other :: layers =>
      simp only [acceptLayers, Graph.accept]
      cases (layer :: other :: layers).forM g.check with
      | error e => rfl
      | ok u =>
          simp only [run_bind, run_intern, run_output, Graph.output, Graph.id_intern]
          rfl

end Build

/-- What a graph can be asked to build. -/
inductive Call
  | image (reference : String)
  | localDir (name : String)
  | exec (base : State) (options : RunOptions)
  | copy (src : State) (srcPath : String) (dest : State) (destPath : String) (flags : CopyFlags)
  | merge (states : List State)

/-- The graph behind a call, also behind one that fails. -/
def Call.next (g : Graph) : Call → Graph
  | image reference => ((Build.image reference).run g).2
  | localDir name => ((Build.localDir name).run g).2
  | exec base options => ((Build.exec base options).run g).2
  | copy src srcPath dest destPath flags =>
      ((Build.copy src srcPath dest destPath flags).run g).2
  | merge states => ((Build.merge states).run g).2

/-- A graph that some calls lead to, whether they succeed or fail. -/
inductive Graph.Reachable : Graph → Prop
  | empty (id : GraphId) : Reachable (.empty id)
  | call {g : Graph} (h : Reachable g) (c : Call) : Reachable (c.next g)

theorem Graph.Reachable.calls {g : Graph} (h : g.Reachable) (cs : List Call) :
    (cs.foldl Call.next g).Reachable := by
  induction cs generalizing g with
  | nil => exact h
  | cons c cs ih => exact ih (h.call c)

namespace Graph

/-- An output of a vertex that the graph has. -/
def HasOutput (g : Graph) (o : Output) : Prop :=
  o.graph = g.id ∧ ∃ v, g.vertex? o.vertex = some v ∧ o.index < v.op.outputCount

theorem check_eq_ok_iff (g : Graph) (s : State) :
    g.check s = .ok () ↔ ∀ o, s.output = some o → g.HasOutput o := by
  unfold check HasOutput
  cases s.output with
  | none => simp
  | some o =>
      by_cases hid : o.graph = g.id
      · cases hv : g.vertex? o.vertex with
        | none => simp [hid, hv]
        | some v => by_cases hi : o.index < v.op.outputCount <;> simp [hid, hv, hi]
      · simp [hid]

end Graph

end BuildGraph
