import BuildGraph.Json.Tree

/-!
# Decoders

A decoder interprets a tree. It walks the tree from the front and reports the first problem, so
`Decoder.run` on a text reports the first problem in the text; only what stands behind the document is looked
at last.

Where a decoder meets a value of another kind it says what it found, and for that it reads a number or a string
to its end; of an array or an object it sees no more than the bracket.
-/

namespace BuildGraph.Json

abbrev Decoder (α : Type) := Tree → Except Error α

/-- The value where there is one, otherwise its fault. -/
def orFault {α : Type} : Except Fault α → Except Error α
  | .ok a => .ok a
  | .error f => .error (.fault f)

/-- What is reported of a value that is not of the expected kind. -/
def Tree.refuse (t : Tree) (expected : String) : Error :=
  let found (x : Found) : Error := .mismatch (.wrongType x expected)
  match t with
  | .null => found .null
  | .boolean b => found (.boolean b)
  | .number (.ok n) _ => found (.number n)
  | .string (.ok s) _ => found (.string s)
  | .array _ _ => found .sequence
  | .object _ _ => found .map
  | .number (.error f) _ | .string (.error f) _ | .word f | .broken f => .fault f

namespace Decoder

def string : Decoder String
  | .string v _ => orFault v
  | t => .error (t.refuse "a string")

def boolean : Decoder Bool
  | .boolean b => .ok b
  | t => .error (t.refuse "a boolean")

def unit : Decoder Unit
  | .null => .ok ()
  | t => .error (t.refuse "unit")

def natural (bound : Nat) (expected : String) : Decoder Nat
  | .number (.ok (.natural n)) _ =>
    if n < bound then .ok n else .error (.mismatch (.outOfRange n expected))
  | .number (.ok (.negative n)) _ => .error (.mismatch (.outOfRange (-(n : Int)) expected))
  | t => .error (t.refuse expected)

def nullable {α : Type} (d : Decoder α) : Decoder (Option α)
  | .null => .ok none
  | t => (d t).map some

/-- The fault where a sequence of any length ends. -/
def endOfSequence : Ending → Except Error Unit
  | .closed => .ok ()
  | .cut => .error (.fault .endInArray)
  | .comma => .error (.fault .trailingComma)
  | .stray => .error (.fault .expectedArrayEnd)

/-- The fault where the members of an object end. -/
def endOfMap : Ending → Except Error Unit
  | .closed => .ok ()
  | .cut => .error (.fault .endInObject)
  | .comma => .error (.fault .trailingComma)
  | .stray => .error (.fault .expectedObjectEnd)

def key : Decoder String
  | .string v _ => orFault v
  | .broken .endInValue => .error (.fault .endInValue)
  | _ => .error (.fault .keyNotString)

def list {α : Type} (d : Decoder α) : Decoder (List α)
  | .array items e => do
    let xs ← items.mapM d
    endOfSequence e
    return xs
  | t => .error (t.refuse "a sequence")

/-- The members of an object in the order of the text, repeated keys included. -/
def members {α : Type} (d : Decoder α) : Decoder (List (String × α))
  | .object ms e => do
    let xs ← ms.mapM fun m => do
      let k ← key m.1
      let x ← d m.2
      return (k, x)
    endOfMap e
    return xs
  | t => .error (t.refuse "a map")

end Decoder

/-- One of several named cases. It stands alone or is the only key of an object, whose value has the rest. -/
structure Variant (α : Type) where
  name : String
  bare : Except Error α
  body : Decoder α

def Variant.plain {α : Type} (name : String) (a : α) : Variant α :=
  ⟨name, .ok a, fun t => (Decoder.unit t).map fun _ => a⟩

def Variant.carrying {α : Type} (name : String) (d : Decoder α) : Variant α :=
  ⟨name, .error (.mismatch (.wrongType .bareVariant "newtype variant")), d⟩

def Variant.pick {α : Type} (vs : List (Variant α)) (name : String) : Except Error (Variant α) :=
  match vs.find? (·.name == name) with
  | some v => .ok v
  | none => .error (.mismatch (.unknownVariant name (vs.map (·.name))))

/-- The fault behind the only member of an object. -/
def endOfVariant : List (Tree × Tree) → Ending → Except Error Unit
  | [], .closed => .ok ()
  | [], .cut => .error (.fault .endInObject)
  | _, _ => .error (.fault .expectedValue)

def Decoder.oneOf {α : Type} (vs : List (Variant α)) : Decoder α
  | .string v _ => do
    let name ← orFault v
    (← Variant.pick vs name).bare
  | .object [] .cut => .error (.fault .endInObject)
  | .object ((k, x) :: more) e => do
    let name ← key k
    let a ← (← Variant.pick vs name).body x
    endOfVariant more e
    return a
  | .broken f => .error (.fault f)
  | _ => .error (.fault .expectedValue)

def Decoder.run {α : Type} (d : Decoder α) (bytes : List UInt8) : Except Error α := do
  let (tree, rest) := Tree.ofTokens (tokens bytes)
  let a ← d tree
  match rest with
  | [] => return a
  | _ :: _ => throw (.fault .trailingText)

end BuildGraph.Json
