import BuildGraph.Definition.Basic
import BuildGraph.Proofs.Definition.Needed
import BuildGraph.Proofs.Lists
import BuildGraph.Proofs.Op.Valid

/-!
# What graphs and definitions stand for

An `Interpretation` says what filesystems are and what operations make of them. It gives a meaning to a graph and
to a definition. An output of a graph is found by recursion: the vertex is evaluated, and before it the vertices
that it reads. A definition is evaluated from the front, and an input is looked up by its digest among the
results that are there already.

Either may fail, where a reference leads nowhere or an operation does not make the output that is asked for.
-/

namespace BuildGraph

/-- What operations mean. `outputs op inputs` are the filesystems that `op` makes of those that it refers to,
which are given in the order of its references. -/
structure Interpretation (F : Type) where
  empty : F
  outputs : Op → List F → List F

variable {F : Type}

namespace Interpretation

/-- The filesystem that a reference is to. -/
def pick (I : Interpretation F) (inputs : List F) : Option Nat → Option F
  | none => some I.empty
  | some index => inputs[index]?

/-- The outputs of an operation with given inputs. -/
def run (I : Interpretation F) (op : Op) (inputs : List F) : Option (List F) :=
  (op.references.mapM (I.pick inputs)).map (I.outputs op)

/-- Every operation makes all its outputs. -/
def Complete (I : Interpretation F) : Prop :=
  ∀ op inputs, op.outputCount ≤ (I.outputs op inputs).length

end Interpretation

/-- The filesystems of the operations evaluated so far. -/
abbrev Results (F : Type) := List (Digest × List F)

/-- The filesystem of an input among those made so far. -/
def Results.fetch (results : Results F) (r : InputRef) : Option F :=
  (results.lookup r.digest).bind (·[r.index]?)

/-- The results behind some more operations, evaluated in their order. -/
def Interpretation.runAll (I : Interpretation F) : Results F → List DefinitionOp → Option (Results F)
  | results, [] => some results
  | results, o :: os => do
    let inputs ← o.inputs.mapM results.fetch
    let outputs ← I.run o.op inputs
    I.runAll (results ++ [(o.digest, outputs)]) os

/-- The filesystem that a definition stands for. -/
def Definition.eval (I : Interpretation F) (d : Definition) : Option F := do
  let results ← I.runAll [] d.ops
  match d.root with
  | none => some I.empty
  | some r => results.fetch r

namespace Graph

/-- The filesystems of a vertex. Its inputs are outputs of vertices in front, as they are in a sound graph. -/
def evalVertex (I : Interpretation F) (g : Graph) (vertex : Nat) : Option (List F) :=
  match g.vertex? vertex with
  | none => none
  | some v => do
    let inputs ← v.inputs.mapM fun o =>
      if _h : o.vertex < vertex then (evalVertex I g o.vertex).bind (·[o.index]?) else none
    I.run v.op inputs
termination_by vertex

/-- The filesystem of an output. -/
def evalOutput (I : Interpretation F) (g : Graph) (o : Output) : Option F :=
  (g.evalVertex I o.vertex).bind (·[o.index]?)

/-- The filesystem of a state. -/
def evalState (I : Interpretation F) (g : Graph) (s : State) : Option F :=
  match s.output with
  | none => some I.empty
  | some o => g.evalOutput I o

end Graph

/-- A valid operation has outputs for as many inputs as it was checked with. -/
theorem Interpretation.exists_run_eq_some (I : Interpretation F) {op : Op} {inputs : List F}
    (h : op.validate inputs.length = .ok ()) :
    ∃ picked, I.run op inputs = some (I.outputs op picked) := by
  cases hpicked : op.references.mapM (I.pick inputs) with
  | some picked => exact ⟨picked, by rw [run, hpicked, Option.map_some]⟩
  | none =>
      obtain ⟨reference, hmem, hnone⟩ := mapM_eq_none_iff.1 hpicked
      cases reference with
      | none => cases hnone
      | some index =>
          have hlt := Op.references_lt h hmem
          have hge : inputs.length ≤ index := List.getElem?_eq_none_iff.1 hnone
          exact absurd hlt (Nat.not_lt.2 hge)

theorem Interpretation.runAll_append (I : Interpretation F) (results : Results F)
    (xs ys : List DefinitionOp) :
    I.runAll results (xs ++ ys) = (I.runAll results xs).bind fun results => I.runAll results ys := by
  induction xs generalizing results with
  | nil => rfl
  | cons o os ih =>
      simp only [List.cons_append, runAll, bind, Option.bind_assoc]
      refine Option.bind_congr fun inputs _ => Option.bind_congr fun outputs _ => ih _

namespace Graph

theorem evalVertex_eq {g : Graph} (hg : g.Sound) (I : Interpretation F) {vertex : Nat} {v : Vertex}
    (hv : g.vertex? vertex = some v) :
    g.evalVertex I vertex = (v.inputs.mapM (g.evalOutput I)).bind (I.run v.op) := by
  rw [evalVertex, hv]
  have hinputs : ∀ o ∈ v.inputs,
      (if _h : o.vertex < vertex then (evalVertex I g o.vertex).bind (·[o.index]?) else none) =
        g.evalOutput I o := by
    intro o ho
    exact dif_pos (hg.inputs vertex v hv o ho).1
  have hmapM := mapM_eq_mapM_of_forall₂ (List.forall₂_same.2 hinputs)
  simp only [bind, hmapM]

/-- A vertex has no filesystems if one that it reads has none. -/
theorem Reads.evalVertex_eq_none {g : Graph} (hg : g.Sound) (I : Interpretation F)
    {vertex read : Nat} (h : g.Reads vertex read) (hread : g.evalVertex I read = none) :
    g.evalVertex I vertex = none := by
  obtain ⟨v, hv, o, ho, rfl⟩ := h
  have hnone : v.inputs.mapM (g.evalOutput I) = none :=
    mapM_eq_none_iff.2 ⟨o, ho, by rw [evalOutput, hread, Option.bind_none]⟩
  rw [evalVertex_eq hg I hv, hnone, Option.bind_none]

theorem Needs.evalVertex_eq_none {g : Graph} (hg : g.Sound) (I : Interpretation F)
    {vertex needed : Nat} (h : g.Needs vertex needed) (hneeded : g.evalVertex I needed = none) :
    g.evalVertex I vertex = none := by
  induction h with
  | refl => exact hneeded
  | tail _ hread ih => exact ih (hread.evalVertex_eq_none hg I hneeded)

end Graph

end BuildGraph
