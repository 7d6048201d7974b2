import BuildGraph.Definition.Basic
import BuildGraph.Op.Validate

/-!
# The graph of a definition

`Dag.ofDefinition` accepts a definition that holds together: every operation is listed under the digest that
fits it, could be carried out, and is listed once; every input is an output of an operation in front; the wanted
output is there. The first offence in the order of the list is reported.

What is accepted is a graph of digests. `topologicalOrder` is an order in which inputs come first,
`dependencies` are the direct inputs of an operation, and `waves` groups the operations so that those of one
wave need nothing but earlier waves, each as early as possible.
-/

namespace BuildGraph

inductive DagError
  | duplicateOp (op : Digest)
  | danglingInput (op input : Digest)
  | outOfOrder (op input : Digest)
  | missingOutput (op input : Digest) (index : Nat)
  | danglingRoot (root : Digest)
  | danglingRootOutput (root : Digest) (index : Nat)
  | digestMismatch (listed computed : Digest)
  | invalidOp (op : Digest) (reason : InvalidOp)
  | cycleDetected
deriving DecidableEq, Repr

def DagError.message : DagError → String
  | duplicateOp op => "op " ++ op.text ++ " appears more than once"
  | danglingInput op input => "op " ++ op.text ++ " references missing input " ++ input.text
  | outOfOrder op input => "op " ++ op.text ++ " is listed before its input " ++ input.text
  | missingOutput op input index =>
    "op " ++ op.text ++ " has no output " ++ toString index ++ " on input " ++ input.text
  | danglingRoot root => "root references missing op " ++ root.text
  | danglingRootOutput root index =>
    "root references output " ++ toString index ++ " of " ++ root.text ++ ", which has no such output"
  | digestMismatch listed computed =>
    "digest mismatch: listed " ++ listed.text ++ ", computed " ++ computed.text
  | invalidOp op reason => "op " ++ op.text ++ " is invalid: " ++ reason.message
  | cycleDetected => "dependency cycle detected"

/-- An operation and the operations that it reads, one for each input. -/
structure DagNode where
  digest : Digest
  inputs : List Digest
deriving DecidableEq, Repr

/-- Operations in the order of their definition. -/
structure Dag where
  nodes : List DagNode
deriving DecidableEq, Repr

namespace Dag

/-- The operations checked so far, and how many outputs each has. -/
abbrev Known := List (Digest × Nat)

/-- An input is an output of an operation known already. -/
def checkInput (all : List DefinitionOp) (known : Known) (op : Digest) (input : InputRef) : Except DagError Unit :=
  match known.lookup input.digest with
  | some count => if input.index < count then .ok () else .error (.missingOutput op input.digest input.index)
  | none =>
    if all.any (·.digest == input.digest) then .error (.outOfOrder op input.digest)
    else .error (.danglingInput op input.digest)

/-- An operation fits its digest, could be carried out, is new, and has its inputs in front. -/
def checkOp (all : List DefinitionOp) (known : Known) (o : DefinitionOp) : Except DagError Unit := do
  if o.computeDigest ≠ o.digest then throw (.digestMismatch o.digest o.computeDigest)
  (o.op.validate o.inputs.length).mapError (.invalidOp o.digest)
  if (known.lookup o.digest).isSome then throw (.duplicateOp o.digest)
  o.inputs.forM (checkInput all known o.digest)

/-- The operations known once some more have been checked. -/
def checkOps (all : List DefinitionOp) : Known → List DefinitionOp → Except DagError Known
  | known, [] => .ok known
  | known, o :: os => do
    checkOp all known o
    checkOps all (known ++ [(o.digest, o.op.outputCount)]) os

def checkRoot (known : Known) : Option InputRef → Except DagError Unit
  | none => .ok ()
  | some root =>
    match known.lookup root.digest with
    | none => .error (.danglingRoot root.digest)
    | some count => if root.index < count then .ok () else .error (.danglingRootOutput root.digest root.index)

def node (o : DefinitionOp) : DagNode := ⟨o.digest, o.inputs.map (·.digest)⟩

/-- The operations that read one, once for every input, in the order of the definition. -/
def readers (dag : Dag) (d : Digest) : List Digest :=
  dag.nodes.flatMap fun n => (n.inputs.filter (· == d)).map fun _ => n.digest

/-- The operations finished once one and its readers are, the one finished last in front. No chain of readers
is longer than the list of nodes. -/
def finish (dag : Dag) : Nat → Digest → List Digest → List Digest
  | 0, _, finished => finished
  | depth + 1, d, finished =>
    if d ∈ finished then finished
    else d :: (dag.readers d).foldl (fun finished r => dag.finish depth r finished) finished

/-- The nodes in the reverse of the order in which a depth-first walk along the readers finishes them. -/
def finishingOrder (dag : Dag) : List Digest :=
  dag.nodes.foldl (fun finished n => dag.finish dag.nodes.length n.digest finished) []

/-- The inputs of an operation, none for an unknown one. -/
def inputsOf (dag : Dag) (d : Digest) : List Digest :=
  match dag.nodes.find? (·.digest == d) with
  | some n => n.inputs
  | none => []

/-- All inputs of the operations of a list come before them, or are among `earlier`. -/
def isOrder (dag : Dag) : List Digest → List Digest → Bool
  | _, [] => true
  | earlier, d :: ds => (dag.inputsOf d).all (earlier.contains ·) && dag.isOrder (d :: earlier) ds

/-- The operations, inputs in front of what reads them. Only a cycle leaves no such order. -/
def topologicalOrder (dag : Dag) : Except DagError (List Digest) :=
  let order := dag.finishingOrder
  if dag.isOrder [] order then .ok order else .error .cycleDetected

/-- The graph of a definition that holds together. -/
def ofDefinition (d : Definition) : Except DagError Dag := do
  let known ← checkOps d.ops [] d.ops
  checkRoot known d.root
  let dag : Dag := ⟨d.ops.map node⟩
  let _ ← dag.topologicalOrder
  return dag

def size (dag : Dag) : Nat := dag.nodes.length

def isEmpty (dag : Dag) : Bool := dag.nodes.isEmpty

/-- The operations that one reads directly, each once, ascending. -/
def dependencies (dag : Dag) (d : Digest) : List Digest :=
  (dag.inputsOf d).eraseDups.mergeSort Digest.le

/-- A node reads none of those that remain. -/
def isReady (remaining : List DagNode) (n : DagNode) : Bool :=
  n.inputs.all fun d => !remaining.any (·.digest == d)

/-- The nodes of the next wave. -/
def ready (remaining : List DagNode) : List DagNode := remaining.filter (isReady remaining)

/-- The nodes of later waves. -/
def waiting (remaining : List DagNode) : List DagNode := remaining.filter fun n => !isReady remaining n

theorem length_waiting_lt {remaining : List DagNode} (h : ready remaining ≠ []) :
    (waiting remaining).length < remaining.length := by
  obtain ⟨n, hn⟩ := List.exists_mem_of_ne_nil _ h
  obtain ⟨hmem, hready⟩ := List.mem_filter.1 hn
  exact List.length_filter_lt_length_iff_exists.2 ⟨n, hmem, by simp [hready]⟩

/-- The waves of the nodes that remain. -/
def wavesOf (remaining : List DagNode) : Except DagError (List (List Digest)) :=
  if remaining = [] then .ok []
  else if _h : ready remaining = [] then .error .cycleDetected
  else do
    let later ← wavesOf (waiting remaining)
    return ((ready remaining).map (·.digest)).mergeSort Digest.le :: later
termination_by remaining.length
decreasing_by exact length_waiting_lt _h

/-- Groups of operations, each as early as its inputs allow, ascending by digest. -/
def waves (dag : Dag) : Except DagError (List (List Digest)) := wavesOf dag.nodes

end Dag

end BuildGraph
