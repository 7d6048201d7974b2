import BuildGraph.Definition.Basic
import BuildGraph.Graph.Basic
import BuildGraph.Op.Validate

/-!
# Definitions from graphs

`marshal` turns the part of a graph that a state depends on into a definition. Every vertex needed is emitted
once, in the order of the graph. Inputs have lower positions than the vertices that read them, so one pass from
the wanted vertex downwards finds what is needed, and one pass upwards finds the digests of a vertex's inputs
ready.
-/

namespace BuildGraph

/-- Why a state has no definition. -/
inductive MarshalError
  | invalidOp (kind description : String) (reason : InvalidOp)
  | unknownVertex (vertex : Nat)
  | root (e : GraphError)
deriving DecidableEq, Repr

def MarshalError.message : MarshalError → String
  | invalidOp kind description reason =>
    "cannot encode " ++ kind ++ " op `" ++ description ++ "`: " ++ reason.message
  | unknownVertex vertex => "state refers to unknown vertex " ++ vertexName vertex
  | root e => "cannot marshal root: " ++ e.message

/-- Of the vertices below a position, those that are wanted or needed by one that is, in front of `found`. -/
def sweep (g : Graph) : Nat → List Nat → List Nat → Except MarshalError (List Nat)
  | 0, _, found => .ok found
  | vertex + 1, wanted, found =>
    if vertex ∈ wanted then
      match g.vertex? vertex with
      | none => .error (.unknownVertex vertex)
      | some v =>
        match v.inputs.find? fun o => vertex ≤ o.vertex with
        | some o => .error (.unknownVertex o.vertex)
        | none => sweep g vertex (v.inputs.map (·.vertex) ++ wanted) (vertex :: found)
    else sweep g vertex wanted found

/-- The vertices that a vertex depends on, itself included, ascending. -/
def reachable (g : Graph) (vertex : Nat) : Except MarshalError (List Nat) := sweep g (vertex + 1) [vertex] []

/-- The operations emitted so far, with the vertices that they stand for. -/
abbrev Emitted := List (Nat × DefinitionOp)

/-- An output by the digest of its vertex. -/
def inputRef (done : Emitted) (o : Output) : Except MarshalError InputRef :=
  match done.lookup o.vertex with
  | some d => .ok ⟨d.digest, o.index⟩
  | none => .error (.unknownVertex o.vertex)

/-- The operation of a vertex whose inputs have been emitted. -/
def emitVertex (done : Emitted) (v : Vertex) : Except MarshalError DefinitionOp := do
  match v.op.validate v.inputs.length with
  | .error reason => throw (.invalidOp v.op.kind v.op.describe reason)
  | .ok () => return .ofBody (← v.inputs.mapM (inputRef done)) v.op

/-- The operations of some vertices behind those emitted before. -/
def emit (g : Graph) : Emitted → List Nat → Except MarshalError Emitted
  | done, [] => .ok done
  | done, vertex :: rest => do
    match g.vertex? vertex with
    | none => throw (.unknownVertex vertex)
    | some v => emit g (done ++ [(vertex, ← emitVertex done v)]) rest

/-- The definition of a state of a graph. -/
def marshal (g : Graph) (root : State) (platform : Platform) : Except MarshalError Definition :=
  match root.output with
  | none => .ok ⟨Definition.currentVersion, [], none, platform⟩
  | some o => do
    (g.check root).mapError .root
    let emitted ← emit g [] (← reachable g o.vertex)
    let root ← inputRef emitted o
    return ⟨Definition.currentVersion, emitted.map (·.2), some root, platform⟩

end BuildGraph
