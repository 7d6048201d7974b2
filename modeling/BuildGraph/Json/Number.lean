import BuildGraph.Json.Error

/-!
# Numbers in JSON text

`scanNumber` finds the parts of a number: sign, whole digits, digits behind the point and a power of ten. What
the parts denote is another question, `Numeral.value`. Whole numbers are kept exactly when they fit into 64
bits. Any other number is binary64: as many leading digits as fit into 64 bits are taken as a natural, the rest
only move the point, and the natural is multiplied or divided by a power of ten. That is not always the nearest
binary64 number, but it is the one that is meant here. A number too large for binary64 is out of range.
-/

namespace BuildGraph.Json

def isDigit (b : UInt8) : Bool := 0x30 ≤ b && b ≤ 0x39

structure Numeral where
  negative : Bool
  whole : List Nat
  fraction : Option (List Nat)
  power : Option Int
deriving DecidableEq, Repr

def takeDigits (bs : List UInt8) : List Nat × List UInt8 :=
  ((bs.takeWhile isDigit).map fun b => b.toNat - 0x30, bs.dropWhile isDigit)

/-- Digits are missing; whether the text ends there is all that can be told. -/
def missingDigits (rest : List UInt8) : Fault := if rest = [] then .endInValue else .badNumber

def ofDigits (ds : List Nat) : Nat := ds.foldl (fun n d => 10 * n + d) 0

/-- Whether a minus is in front, and what follows it. -/
def splitMinus : List UInt8 → Bool × List UInt8
  | 0x2d :: rest => (true, rest)
  | bs => (false, bs)

/-- Whether the sign in front is a minus, and what follows it. A plus may be left out. -/
def splitSign : List UInt8 → Bool × List UInt8
  | 0x2b :: rest => (false, rest)
  | bs => splitMinus bs

/-- The digits in front of a point. A zero in front of other digits is refused. -/
def scanWhole (bs : List UInt8) : Except Fault (List Nat × List UInt8) :=
  match takeDigits bs with
  | ([], after) => .error (missingDigits after)
  | (0 :: _ :: _, _) => .error .badNumber
  | (d :: ds, after) => .ok (d :: ds, after)

/-- The digits behind a point, if there is one. -/
def scanFraction : List UInt8 → Except Fault (Option (List Nat) × List UInt8)
  | 0x2e :: rest =>
    match takeDigits rest with
    | ([], after) => .error (missingDigits after)
    | (d :: ds, after) => .ok (some (d :: ds), after)
  | bs => .ok (none, bs)

/-- The power of ten behind an `e`, if there is one. -/
def scanPower : List UInt8 → Except Fault (Option Int × List UInt8)
  | [] => .ok (none, [])
  | b :: rest =>
    if b = 0x65 ∨ b = 0x45 then
      let sign := splitSign rest
      match takeDigits sign.2 with
      | ([], after) => .error (missingDigits after)
      | (d :: ds, after) => .ok (some (if sign.1 then -(ofDigits (d :: ds) : Int) else ofDigits (d :: ds)), after)
    else .ok (none, b :: rest)

/-- The parts of a number and the text behind it. -/
def scanNumber (bs : List UInt8) : Except Fault (Numeral × List UInt8) := do
  let sign := splitMinus bs
  let (whole, bs) ← scanWhole sign.2
  let (fraction, bs) ← scanFraction bs
  let (power, bs) ← scanPower bs
  return (⟨sign.1, whole, fraction, power⟩, bs)

def maxWord : Nat := Nat.pow 2 64 - 1

/-- The natural of as many digits as fit into 64 bits, and the number of digits left. -/
def significand : Nat → List Nat → Nat × Nat
  | s, [] => (s, 0)
  | s, d :: ds => if s * 10 + d ≤ maxWord then significand (s * 10 + d) ds else (s, ds.length + 1)

/-- A binary64 number times a power of ten. Powers beyond 308 are taken in steps. -/
def scale (f : Float) (power : Int) : Except Fault Float :=
  if power.natAbs ≤ 308 then
    let unit := Float.ofScientific 1 false power.natAbs
    if 0 ≤ power then
      if (f * unit).isInf then .error .numberRange else .ok (f * unit)
    else .ok (f / unit)
  else if f == 0 then .ok f
  else if 0 ≤ power then .error .numberRange
  else scale (f / Float.ofScientific 1 false 308) (power + 308)
termination_by power.natAbs
decreasing_by omega

/-- The binary64 number that a significand, a power of ten and a sign denote. -/
def binary (negative : Bool) (s : Nat) (power : Int) : Except Fault Number :=
  (scale s.toUInt64.toFloat power).map fun f => .binary (if negative then -f else f).toBits

def Numeral.value (n : Numeral) : Except Fault Number :=
  let (s, left) := significand 0 n.whole
  match n.fraction, n.power with
  | none, none =>
    if left ≠ 0 then binary n.negative s left
    else if !n.negative then .ok (.natural s)
    else if s = 0 ∨ Nat.pow 2 63 < s then binary true s 0
    else .ok (.negative s)
  | fraction, power =>
    let digits := fraction.getD []
    let (s, unread) := significand s digits
    binary n.negative s (left - (digits.length - unread : Nat) + power.getD 0)

end BuildGraph.Json
