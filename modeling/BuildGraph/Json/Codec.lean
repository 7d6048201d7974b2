import BuildGraph.Json.Decoder
import BuildGraph.Json.Value
import BuildGraph.StringMap

/-!
# Codecs

A `Codec` says how the values of a type are written and how they are read, in one place, so that the two cannot
drift apart. Records are described by their fields, in the order in which they are written. An object may have
the fields in any order and others beside them; a record may also be an array of its fields. A field that is
missing in an object has a value of its own (`absent`), or is reported when the object ends.
-/

namespace BuildGraph.Json

/-- How a type is written and read. -/
structure Codec (α : Type) where
  encode : α → Value
  decode : Decoder α

namespace Codec

def string : Codec String := ⟨.string, Decoder.string⟩

def boolean : Codec Bool := ⟨.boolean, Decoder.boolean⟩

def natural (bound : Nat) (expected : String) : Codec Nat := ⟨.natural, Decoder.natural bound expected⟩

def indexBound : Nat := Nat.pow 2 64

def index : Codec Nat := natural indexBound "usize"

def word32 : Codec UInt32 where
  encode n := .natural n.toNat
  decode t := (Decoder.natural UInt32.size "u32" t).map UInt32.ofNat

def nullable {α : Type} (c : Codec α) : Codec (Option α) where
  encode
    | none => .null
    | some a => c.encode a
  decode := Decoder.nullable c.decode

def list {α : Type} (c : Codec α) : Codec (List α) where
  encode xs := .array (xs.map c.encode)
  decode := Decoder.list c.decode

def stringMap : Codec StringMap where
  encode m := .object (m.entries.map fun e => (e.1, .string e.2))
  decode t := (Decoder.members Decoder.string t).map StringMap.ofList

/-- The codec of a type whose values stand for those of another. -/
def imap {α β : Type} (c : Codec α) (f : α → β) (g : β → α) : Codec β where
  encode b := c.encode (g b)
  decode t := (c.decode t).map f

end Codec

/-- One field of a record. `absent` is its value where an object lacks it, `short` where an array ends before
it. A field for which `encode` is none is not written. -/
structure Field (α : Type) where
  name : String
  encode : α → Option Value
  decode : Decoder α
  absent : Option α
  short : Option α

namespace Field

def required {α : Type} (name : String) (c : Codec α) : Field α :=
  ⟨name, fun a => some (c.encode a), c.decode, none, none⟩

/-- A field that is null where an object lacks it. -/
def optional {α : Type} (name : String) (c : Codec α) : Field (Option α) :=
  ⟨name, fun a => some (c.nullable.encode a), c.nullable.decode, some none, none⟩

/-- A field with a value for the case that it is missing. It is not written where `hidden` holds. -/
def defaulted {α : Type} (name : String) (c : Codec α) (default : α) (hidden : α → Bool) : Field α :=
  ⟨name, fun a => if hidden a then none else some (c.encode a), c.decode, some default, some default⟩

end Field

/-- The fields of a record with values `τ`. While an object is read, `δ` has what is known of them. -/
inductive Fields : Type → Type → Type 1
  | done : Fields Unit Unit
  | field {α β δ : Type} (f : Field α) (rest : Fields β δ) : Fields (α × β) (Option α × δ)

namespace Fields

def count {τ δ : Type} : Fields τ δ → Nat
  | done => 0
  | field _ rest => rest.count + 1

def encode {τ δ : Type} : Fields τ δ → τ → List (String × Value)
  | done, _ => []
  | field f rest, (a, b) =>
    match f.encode a with
    | some v => (f.name, v) :: rest.encode b
    | none => rest.encode b

def blank {τ δ : Type} : Fields τ δ → δ
  | done => ()
  | field _ rest => (none, rest.blank)

/-- The field of a name is read, if there is one. It must not have been read before. -/
def put? {τ δ : Type} : Fields τ δ → String → Tree → δ → Option (Except Error δ)
  | done, _, _, _ => none
  | field f rest, name, t, (slot, d) =>
    if f.name = name then
      match slot with
      | some _ => some (.error (.mismatch (.repeatedField name)))
      | none => some ((f.decode t).map fun a => (some a, d))
    else (rest.put? name t d).map (·.map fun d => (slot, d))

/-- What is known after one more member. A member without a field has only to be free of faults. -/
def member {τ δ : Type} (fs : Fields τ δ) (d : δ) (m : Tree × Tree) : Except Error δ := do
  let name ← Decoder.key m.1
  match fs.put? name m.2 d with
  | some d => d
  | none =>
    match m.2.skip? with
    | some f => throw (.fault f)
    | none => return d

/-- The record, once its object has ended. The first field that is missing is reported. -/
def finish {τ δ : Type} : Fields τ δ → δ → Except Error τ
  | done, _ => .ok ()
  | field f rest, (slot, d) =>
    match slot.or f.absent with
    | some a => (rest.finish d).map fun b => (a, b)
    | none => .error (.mismatch (.missingField f.name))

/-- The record that is an object. -/
def ofObject {τ δ : Type} (fs : Fields τ δ) (ms : List (Tree × Tree)) (e : Ending) : Except Error τ := do
  let d ← ms.foldlM fs.member fs.blank
  Decoder.endOfMap e
  fs.finish d

/-- The fault behind the last field of an array. -/
def endOfArray : List Tree → Ending → Except Error Unit
  | [], .closed => .ok ()
  | [], .cut => .error (.fault .endInArray)
  | [], .comma => .error (.fault .trailingComma)
  | [], .stray | _ :: _, _ => .error (.fault .trailingText)

/-- The record that is an array of its fields, `read` of which have been read. -/
def ofArray {τ δ : Type} (expected : String) : Fields τ δ → Nat → List Tree → Ending → Except Error τ
  | done, _, xs, e => endOfArray xs e
  | field f rest, read, x :: xs, e => do
    let a ← f.decode x
    let b ← rest.ofArray expected (read + 1) xs e
    return (a, b)
  | field f rest, read, [], e => do
    Decoder.endOfSequence e
    match f.short with
    | some a => return (a, ← rest.ofArray expected (read + 1) [] e)
    | none => throw (.mismatch (.wrongLength read expected))

def record {τ δ : Type} (name : String) (fs : Fields τ δ) : Codec τ where
  encode a := .object (fs.encode a)
  decode
    | .object ms e => fs.ofObject ms e
    | .array xs e =>
      let size := toString fs.count ++ if fs.count = 1 then " element" else " elements"
      fs.ofArray ("struct " ++ name ++ " with " ++ size) 0 xs e
    | t => .error (t.refuse ("struct " ++ name))

end Fields

end BuildGraph.Json
