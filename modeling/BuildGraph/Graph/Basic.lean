import BuildGraph.ImageRef
import BuildGraph.Op.Basic
import BuildGraph.State
import BuildGraph.Text.Quoted

/-!
# Graphs

A graph is a list of distinct vertices, each an operation and the outputs that it reads. A vertex only reads
vertices in front of it, so the list is an order of the graph, and a vertex is known by its position for good:
vertices are added at the end and never removed. `Graph.intern` adds a vertex only if there is no equal one, so
building the same thing twice gives the same vertex.

What builds a graph is a `Build`: from a graph it leads to a result or an error, and to the graph behind it. A
graph keeps what was added to it even if a later step of the same build fails.
-/

namespace BuildGraph

/-- An operation and the outputs that its inputs stand for. -/
structure Vertex where
  op : Op
  inputs : List Output
deriving DecidableEq

/-- Vertices in the order in which they were added, and a table of their positions. The table has each vertex
just where it is, so no vertex occurs twice. -/
structure Graph where
  id : GraphId
  vertices : List Vertex
  index : List (Vertex × Nat)
  found : ∀ v i, index.lookup v = some i ↔ vertices[i]? = some v

def vertexName (vertex : Nat) : String := "v" ++ toString vertex

inductive GraphError
  | emptyArgs
  | unparsableCommand (command : String)
  | invalidImageRef (reference : String) (problem : ImageRef.Problem)
  | invalidLocalName (name : String)
  | unknownVertex (vertex : Nat)
  | foreignState (vertex : Nat) (graph : GraphId)
  | unknownOutput (vertex index : Nat)
  | noSuchMount (target : String)
  | readonlyMount (target : String)
deriving DecidableEq, Repr

def GraphError.message : GraphError → String
  | emptyArgs => "run command needs at least one argument"
  | unparsableCommand command =>
    "cannot split command " ++ Text.quote command ++ ": unbalanced quotes or trailing escape"
  | invalidImageRef reference problem =>
    "invalid image reference " ++ Text.quote reference ++ ": " ++ problem.message
  | invalidLocalName name => "invalid local context name " ++ Text.quote name
  | unknownVertex vertex => "state refers to unknown vertex " ++ vertexName vertex
  | foreignState vertex graph =>
    "state refers to vertex " ++ vertexName vertex ++ " of another graph (GraphId(" ++ toString graph.number ++ "))"
  | unknownOutput vertex index => "vertex " ++ vertexName vertex ++ " has no output " ++ toString index
  | noSuchMount target => "no mount at " ++ target
  | readonlyMount target => "mount at " ++ target ++ " is read-only and has no output"

namespace Graph

def empty (id : GraphId) : Graph := ⟨id, [], [], by simp⟩

def size (g : Graph) : Nat := g.vertices.length

def isEmpty (g : Graph) : Bool := g.vertices.isEmpty

def vertex? (g : Graph) (vertex : Nat) : Option Vertex := g.vertices[vertex]?

def position? (g : Graph) (v : Vertex) : Option Nat := g.index.lookup v

def output (g : Graph) (vertex index : Nat) : Output := ⟨g.id, vertex, index⟩

theorem position?_eq_some_iff {g : Graph} {v : Vertex} {i : Nat} :
    g.position? v = some i ↔ g.vertex? i = some v := g.found v i

/-- A new vertex is entered in the table with the number of those that are there. -/
theorem found_push {g : Graph} {v : Vertex} (hnew : g.position? v = none) (w : Vertex) (i : Nat) :
    ((v, g.size) :: g.index).lookup w = some i ↔ (g.vertices ++ [v])[i]? = some w := by
  have hold : g.vertices[i]? ≠ some v := by
    intro hi
    rw [position?_eq_some_iff.2 hi] at hnew
    cases hnew
  rw [List.lookup_cons, List.getElem?_append]
  by_cases hw : w = v
  · subst hw
    rw [beq_self_eq_true, Option.some.injEq, size]
    split
    · exact iff_of_false (by omega) hold
    · simp only [List.getElem?_singleton, Option.ite_none_right_eq_some, and_true]
      omega
  · rw [beq_false_of_ne hw, g.found]
    split
    · exact Iff.rfl
    · rename_i hge
      simp [List.getElem?_eq_none (Nat.le_of_not_lt hge), List.getElem?_singleton, Ne.symm hw]

/-- The graph with a new vertex at the end. -/
def push (g : Graph) (v : Vertex) (hnew : g.position? v = none) : Graph where
  id := g.id
  vertices := g.vertices ++ [v]
  index := (v, g.size) :: g.index
  found := found_push hnew

/-- The position of a vertex, which is added if it is new. -/
def intern (g : Graph) (v : Vertex) : Nat × Graph :=
  match hv : g.position? v with
  | some vertex => (vertex, g)
  | none => (g.size, g.push v hv)

/-- A state is the empty filesystem or an output that this graph has. -/
def check (g : Graph) (s : State) : Except GraphError Unit :=
  match s.output with
  | none => .ok ()
  | some o =>
    if o.graph = g.id then
      match g.vertex? o.vertex with
      | none => .error (.unknownVertex o.vertex)
      | some v => if o.index < v.op.outputCount then .ok () else .error (.unknownOutput o.vertex o.index)
    else .error (.foreignState o.vertex o.graph)

end Graph

/-- The place of a state among the inputs of a vertex, and the inputs with it. An output that is already there
keeps its place; the empty filesystem has none. -/
def slot (inputs : List Output) (s : State) : Option Nat × List Output :=
  match s.output with
  | none => (none, inputs)
  | some o =>
    match inputs.idxOf? o with
    | some index => (some index, inputs)
    | none => (some inputs.length, inputs ++ [o])

/-- A way to go on from a graph. -/
def Build (ε α : Type) : Type := Graph → Except ε α × Graph

namespace Build

variable {ε ε' α β : Type}

/-- The result and the graph that a build leads to. -/
def run (b : Build ε α) (g : Graph) : Except ε α × Graph := b g

instance : Monad (Build ε) where
  pure a := fun g => (.ok a, g)
  bind b f := fun g =>
    match b g with
    | (.ok a, g) => f a g
    | (.error e, g) => (.error e, g)

/-- What does not depend on the graph. -/
def ofExcept (x : Except ε α) : Build ε α := fun g => (x, g)

/-- What is asked of the graph as it is. -/
def inspect (f : Graph → Except ε α) : Build ε α := fun g => (f g, g)

def mapError (f : ε → ε') (b : Build ε α) : Build ε' α := fun g =>
  match b g with
  | (.ok a, g) => (.ok a, g)
  | (.error e, g) => (.error (f e), g)

def intern (v : Vertex) : Build ε Nat := fun g =>
  let (vertex, g) := g.intern v
  (.ok vertex, g)

def check (s : State) : Build GraphError Unit := inspect fun g => g.check s

def output (vertex index : Nat) : Build ε Output := fun g => (.ok (g.output vertex index), g)

@[simp] theorem run_pure (a : α) (g : Graph) : (pure a : Build ε α).run g = (.ok a, g) := rfl

@[simp] theorem run_bind_ok {b : Build ε α} {f : α → Build ε β} {g g' : Graph} {a : α}
    (h : b.run g = (.ok a, g')) : (b >>= f).run g = (f a).run g' := by
  simp only [run] at h
  simp [run, bind, h]

@[simp] theorem run_bind_error {b : Build ε α} {f : α → Build ε β} {g g' : Graph} {e : ε}
    (h : b.run g = (.error e, g')) : (b >>= f).run g = (.error e, g') := by
  simp only [run] at h
  simp [run, bind, h]

end Build

end BuildGraph
