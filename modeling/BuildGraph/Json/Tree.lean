import BuildGraph.Json.Token

/-!
# What can be read of a JSON text

`Tree` is a value together with what is wrong with its text. Reading a tree never fails: it goes on for as long
as the text makes sense and records the place where it stops. Whoever interprets a tree walks it from the front,
so the first problem in the text, be it a fault or a value of the wrong shape, is the one that is reported,
although the tree is there before anyone asks what shape it should have.

An array and an object record how they end. The key of a member is a tree as well, because a text can have
anything in the place of a key. `Tree.skip?` is the fault that is met in a value that nobody asks for.
-/

namespace BuildGraph.Json

/-- How the items of an array or the members of an object end: with the closing bracket, with the text, with a
comma in front of the closing bracket, or with something that is neither a comma nor the bracket. -/
inductive Ending
  | closed
  | cut
  | comma
  | stray
deriving DecidableEq, Repr

/-- What can be read of a value. -/
inductive Tree
  | null
  | boolean (b : Bool)
  | number (value : Except Fault Number) (fault : Option Fault)
  | string (value : Except Fault String) (fault : Option Fault)
  | array (items : List Tree) (ending : Ending)
  | object (members : List (Tree × Tree)) (ending : Ending)
  | word (f : Fault)
  | broken (f : Fault)

mutual

/-- The value at the front, and the tokens behind it. Behind a broken value there are none. -/
def readTree : Nat → List Token → Tree × List Token
  | 0, _ | _ + 1, [] => (.broken .endInValue, [])
  | _ + 1, .null :: ts => (.null, ts)
  | _ + 1, .boolean b :: ts => (.boolean b, ts)
  | _ + 1, .number v f :: ts => (.number v f, ts)
  | _ + 1, .string v f :: ts => (.string v f, ts)
  | _ + 1, [.openArray] => (.array [] .cut, [])
  | _ + 1, .openArray :: .closeArray :: ts => (.array [] .closed, ts)
  | fuel + 1, .openArray :: ts =>
    let items := readItems fuel ts
    (.array items.1 items.2.1, items.2.2)
  | _ + 1, [.openObject] => (.object [] .cut, [])
  | _ + 1, .openObject :: .closeObject :: ts => (.object [] .closed, ts)
  | fuel + 1, .openObject :: ts =>
    let members := readMembers fuel ts
    (.object members.1 members.2.1, members.2.2)
  | _ + 1, .word f :: _ => (.word f, [])
  | _ + 1, _ :: _ => (.broken .expectedValue, [])

/-- The items from the front on, how they end, and the tokens behind the array. -/
def readItems : Nat → List Token → List Tree × Ending × List Token
  | 0, _ => ([], .cut, [])
  | fuel + 1, ts =>
    let item := readTree fuel ts
    match item.2 with
    | [] => ([item.1], .cut, [])
    | .closeArray :: rest => ([item.1], .closed, rest)
    | .comma :: .closeArray :: _ => ([item.1], .comma, [])
    | .comma :: rest =>
      let items := readItems fuel rest
      (item.1 :: items.1, items.2)
    | _ => ([item.1], .stray, [])

/-- The members from the front on, how they end, and the tokens behind the object. -/
def readMembers : Nat → List Token → List (Tree × Tree) × Ending × List Token
  | 0, _ => ([], .cut, [])
  | fuel + 1, .string v f :: .colon :: ts =>
    let item := readTree fuel ts
    let member := (.string v f, item.1)
    match item.2 with
    | [] => ([member], .cut, [])
    | .closeObject :: rest => ([member], .closed, rest)
    | .comma :: .closeObject :: _ => ([member], .comma, [])
    | .comma :: rest =>
      let members := readMembers fuel rest
      (member :: members.1, members.2)
    | _ => ([member], .stray, [])
  | _ + 1, [.string v f] => ([(.string v f, .broken .endInObject)], .cut, [])
  | _ + 1, .string v f :: _ => ([(.string v f, .broken .expectedColon)], .cut, [])
  | fuel + 1, ts => ([((readTree fuel ts).1, .broken .expectedValue)], .cut, [])

end

/-- The value at the front of some tokens. No token is looked at more than twice. -/
def Tree.ofTokens (ts : List Token) : Tree × List Token := readTree (2 * ts.length + 2) ts

def Ending.skipArray? : Ending → Option Fault
  | .closed => none
  | .cut => some .endInArray
  | .comma => some .expectedValue
  | .stray => some .expectedArrayEnd

def Ending.skipObject? : Ending → Option Fault
  | .closed => none
  | .cut => some .endInObject
  | .comma => some .keyNotString
  | .stray => some .expectedObjectEnd

def Tree.skipKey? : Tree → Option Fault
  | .string _ f => f
  | .broken .endInValue => some .endInObject
  | _ => some .keyNotString

mutual

/-- The first fault that is met in a value that nobody asks for. -/
def Tree.skip? : Tree → Option Fault
  | .null | .boolean _ => none
  | .number _ f | .string _ f => f
  | .word f | .broken f => some f
  | .array items e => (skipItems? items).or e.skipArray?
  | .object members e => (skipMembers? members).or e.skipObject?

def skipItems? : List Tree → Option Fault
  | [] => none
  | x :: xs => x.skip?.or (skipItems? xs)

def skipMembers? : List (Tree × Tree) → Option Fault
  | [] => none
  | (k, x) :: ms => k.skipKey?.or (x.skip?.or (skipMembers? ms))

end

end BuildGraph.Json
