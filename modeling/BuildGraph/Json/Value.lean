/-!
# JSON values and their text

`Value` has what this library writes: numbers are naturals, and the members of an object keep their order.
`Value.write` gives the bytes of a value. A `Spacing` says what stands where blanks are free: in front of each
item and behind the colon of a member. `compact` leaves all of it out, `indented` begins a line for every item,
two blanks deeper than the line around it. Both write an empty array or object in two bytes.

Text is UTF-8. Of its bytes only the quote, the backslash and those below 32 are escaped, so a byte of a longer
character is never touched.
-/

namespace BuildGraph.Json

inductive Value
  | null
  | boolean (b : Bool)
  | natural (n : Nat)
  | string (s : String)
  | array (items : List Value)
  | object (members : List (String × Value))

def ascii (cs : List Char) : List UInt8 := cs.map Char.toUInt8

def utf8 (s : String) : List UInt8 := s.toByteArray.data.toList

def hexByte (n : Nat) : UInt8 := (Nat.digitChar n).toUInt8

def escapeByte (b : UInt8) : List UInt8 :=
  if b = '"'.toUInt8 then ascii ['\\', '"']
  else if b = '\\'.toUInt8 then ascii ['\\', '\\']
  else if b = 0x08 then ascii ['\\', 'b']
  else if b = 0x09 then ascii ['\\', 't']
  else if b = 0x0a then ascii ['\\', 'n']
  else if b = 0x0c then ascii ['\\', 'f']
  else if b = 0x0d then ascii ['\\', 'r']
  else if b < 0x20 then ascii ['\\', 'u', '0', '0'] ++ [hexByte (b.toNat / 16), hexByte (b.toNat % 16)]
  else [b]

def writeString (s : String) : List UInt8 :=
  '"'.toUInt8 :: (utf8 s).flatMap escapeByte ++ ['"'.toUInt8]

def writeNatural (n : Nat) : List UInt8 := ascii (Nat.toDigits 10 n)

/-- The blanks in front of an item at a depth, and those behind a member's colon. -/
structure Spacing where
  line : Nat → List UInt8
  colon : List UInt8

def Spacing.compact : Spacing := ⟨fun _ => [], []⟩

def Spacing.indented : Spacing := ⟨fun depth => 0x0a :: List.replicate (2 * depth) 0x20, [0x20]⟩

mutual

/-- The bytes of a value that stands at a depth. -/
def Value.write (sp : Spacing) (depth : Nat) : Value → List UInt8
  | .null => ascii ['n', 'u', 'l', 'l']
  | .boolean true => ascii ['t', 'r', 'u', 'e']
  | .boolean false => ascii ['f', 'a', 'l', 's', 'e']
  | .natural n => writeNatural n
  | .string s => writeString s
  | .array [] => ascii ['[', ']']
  | .array (x :: xs) =>
    '['.toUInt8 :: sp.line (depth + 1) ++ x.write sp (depth + 1) ++ writeItems sp depth xs
  | .object [] => ascii ['\x7b', '\x7d']
  | .object ((k, x) :: ms) =>
    '\x7b'.toUInt8 :: sp.line (depth + 1) ++ writeString k ++ ':'.toUInt8 :: sp.colon ++
      x.write sp (depth + 1) ++ writeMembers sp depth ms

/-- The items behind the first one, and the bracket that closes the array. -/
def writeItems (sp : Spacing) (depth : Nat) : List Value → List UInt8
  | [] => sp.line depth ++ [']'.toUInt8]
  | x :: xs =>
    ','.toUInt8 :: sp.line (depth + 1) ++ x.write sp (depth + 1) ++ writeItems sp depth xs

/-- The members behind the first one, and the brace that closes the object. -/
def writeMembers (sp : Spacing) (depth : Nat) : List (String × Value) → List UInt8
  | [] => sp.line depth ++ ['\x7d'.toUInt8]
  | (k, x) :: ms =>
    ','.toUInt8 :: sp.line (depth + 1) ++ writeString k ++ ':'.toUInt8 :: sp.colon ++
      x.write sp (depth + 1) ++ writeMembers sp depth ms

end

def Value.compact (v : Value) : List UInt8 := v.write .compact 0

def Value.indented (v : Value) : List UInt8 := v.write .indented 0

end BuildGraph.Json
