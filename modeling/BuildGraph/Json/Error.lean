import BuildGraph.Decimal.Layout
import BuildGraph.Text.Quoted

/-!
# What can be wrong with a JSON document

A `Fault` is a place where the text stops being JSON; the text may end too early (`isTruncated`) or go on the
wrong way. A `Mismatch` is a value that is well formed but not of the shape that was asked for. Both are causes;
`message` has the wording.
-/

namespace BuildGraph.Json

inductive Fault
  | endInArray
  | endInObject
  | endInString
  | endInValue
  | expectedColon
  | expectedArrayEnd
  | expectedObjectEnd
  | expectedWord
  | expectedValue
  | badEscape
  | badNumber
  | numberRange
  | badUnicode
  | controlCharacter
  | keyNotString
  | loneSurrogate
  | unfinishedSurrogate
  | trailingComma
  | trailingText
deriving DecidableEq, Repr

def Fault.isTruncated : Fault → Bool
  | .endInArray | .endInObject | .endInString | .endInValue => true
  | _ => false

def Fault.message : Fault → String
  | .endInArray => "EOF while parsing a list"
  | .endInObject => "EOF while parsing an object"
  | .endInString => "EOF while parsing a string"
  | .endInValue => "EOF while parsing a value"
  | .expectedColon => "expected `:`"
  | .expectedArrayEnd => "expected `,` or `]`"
  | .expectedObjectEnd => "expected `,` or `\x7d`"
  | .expectedWord => "expected ident"
  | .expectedValue => "expected value"
  | .badEscape => "invalid escape"
  | .badNumber => "invalid number"
  | .numberRange => "number out of range"
  | .badUnicode => "invalid unicode code point"
  | .controlCharacter => "control character (\\u0000-\\u001F) found while parsing a string"
  | .keyNotString => "key must be a string"
  | .loneSurrogate => "lone leading surrogate in hex escape"
  | .unfinishedSurrogate => "unexpected end of hex escape"
  | .trailingComma => "trailing comma"
  | .trailingText => "trailing characters"

/-- A number as it was read: a natural below `2 ^ 64`, a negative integer not below `-2 ^ 63` (without its
sign), or the pattern of a binary64 number. -/
inductive Number
  | natural (n : Nat)
  | negative (n : Nat)
  | binary (bits : UInt64)
deriving DecidableEq, Repr

/-- Binary64 numbers in messages are positional from `0.00001` to below `10 ^ 16`. -/
def numberLayout : Decimal.Layout := ⟨-5, 15⟩

inductive Found
  | null
  | boolean (b : Bool)
  | number (n : Number)
  | string (s : String)
  | sequence
  | map
  | bareVariant
deriving DecidableEq, Repr

def Found.message : Found → String
  | .null => "null"
  | .boolean b => "boolean `" ++ (if b then "true" else "false") ++ "`"
  | .number (.natural n) => "integer `" ++ toString n ++ "`"
  | .number (.negative n) => "integer `-" ++ toString n ++ "`"
  | .number (.binary bits) => "floating point `" ++ String.ofList (Decimal.ofBits numberLayout bits) ++ "`"
  | .string s => "string " ++ Text.quote s
  | .sequence => "sequence"
  | .map => "map"
  | .bareVariant => "unit variant"

/-- Why a well-formed value is not of the shape that was asked for. -/
inductive Mismatch
  | wrongType (found : Found) (expected : String)
  | outOfRange (value : Int) (expected : String)
  | wrongLength (length : Nat) (expected : String)
  | unknownVariant (name : String) (known : List String)
  | missingField (name : String)
  | repeatedField (name : String)
deriving DecidableEq, Repr

/-- The variants that a name could have been. -/
def knownVariants : List String → String
  | [] => "there are no variants"
  | [a] => "expected `" ++ a ++ "`"
  | [a, b] => "expected `" ++ a ++ "` or `" ++ b ++ "`"
  | names => "expected one of " ++ ", ".intercalate (names.map fun n => "`" ++ n ++ "`")

def Mismatch.message : Mismatch → String
  | .wrongType found expected => "invalid type: " ++ found.message ++ ", expected " ++ expected
  | .outOfRange value expected => "invalid value: integer `" ++ toString value ++ "`, expected " ++ expected
  | .wrongLength length expected => "invalid length " ++ toString length ++ ", expected " ++ expected
  | .unknownVariant name known => "unknown variant `" ++ name ++ "`, " ++ knownVariants known
  | .missingField name => "missing field `" ++ name ++ "`"
  | .repeatedField name => "duplicate field `" ++ name ++ "`"

inductive Error
  | fault (f : Fault)
  | mismatch (m : Mismatch)
deriving DecidableEq, Repr

def Error.message : Error → String
  | .fault f => f.message
  | .mismatch m => m.message

end BuildGraph.Json
