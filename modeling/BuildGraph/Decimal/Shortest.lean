/-!
# Shortest decimal digits

A finite binary64 number is `m * 2 ^ q`. The reals that round to it lie between the two midpoints to its
neighbours, the ends included exactly when `m` is even. `shortest` is the decimal with the fewest digits in that
interval, and of two with equally many the nearer one. On the grid of decimals with a given last place only the
two next to the number can be it, because the interval holds the number and has no gaps. All comparisons are
between naturals: both sides are multiplied by the powers of two and ten that their exponents lack.
-/

namespace BuildGraph.Decimal

/-- The digits of a decimal, and the power of ten of the first one. -/
structure Digits where
  digits : List Char
  exponent : Int
deriving DecidableEq, Repr

/-- The magnitude `m * 2 ^ q` of a finite number. -/
structure Magnitude where
  m : Nat
  q : Int
deriving DecidableEq, Repr

/-- The magnitude behind a binary64 pattern, its sign left out. -/
def Magnitude.ofBits (bits : UInt64) : Magnitude :=
  let fraction : Nat := bits.toNat % Nat.pow 2 52
  let exponent : Nat := bits.toNat / Nat.pow 2 52 % Nat.pow 2 11
  if exponent = 0 then ⟨fraction, -1074⟩ else ⟨Nat.pow 2 52 + fraction, exponent - 1075⟩

def isNegative (bits : UInt64) : Bool := bits.toNat / Nat.pow 2 63 == 1

/-- The power of ten of the first digit of `m * 2 ^ q`, found in the number's 400 places behind the point. -/
def leading (x : Magnitude) : Int :=
  let scaled := x.m * Nat.pow 2 x.q.toNat * Nat.pow 10 400 / Nat.pow 2 (-x.q).toNat
  ((Nat.toDigits 10 scaled).length : Int) - 401

/-- The decimals with last place `10 ^ place` next to the number that round to it, with their distance from it
in a common unit. -/
def candidates (x : Magnitude) (place : Int) : List (Nat × Nat) :=
  let unit := Nat.pow 10 place.toNat * Nat.pow 2 (2 - x.q).toNat
  let scale := Nat.pow 2 (x.q - 2).toNat * Nat.pow 10 (-place).toNat
  let value := 4 * x.m * scale
  let low := (if x.m = Nat.pow 2 52 ∧ x.q ≠ -1074 then 4 * x.m - 1 else 4 * x.m - 2) * scale
  let high := (4 * x.m + 2) * scale
  let inside (k : Nat) : Bool :=
    if x.m % 2 = 0 then low ≤ k * unit && k * unit ≤ high else low < k * unit && k * unit < high
  let below := value / unit
  ([(below, value - below * unit), (below + 1, (below + 1) * unit - value)]).filter fun c => inside c.1

/-- The nearer of the candidates, the even one where both are as near. -/
def nearest : List (Nat × Nat) → Option Nat
  | [] => none
  | [(k, _)] => some k
  | (k, d) :: (l, e) :: _ => some (if d < e then k else if e < d then l else if k % 2 = 0 then k else l)

/-- The digits of `k * 10 ^ place` without the zeros at the end. -/
def Digits.ofNat (k : Nat) (place : Int) : Digits :=
  let all := Nat.toDigits 10 k
  let kept := (all.reverse.dropWhile (· == '0')).reverse
  ⟨if kept = [] then ['0'] else kept, place + (all.length : Int) - 1⟩

/-- The first hit among the grids with `count` digits, `count + 1` digits and so on. -/
def search (x : Magnitude) (first : Int) : Nat → Nat → Digits
  | 0, count =>
    let scaled := x.m * Nat.pow 2 x.q.toNat * Nat.pow 10 (count - 1 - first).toNat / Nat.pow 2 (-x.q).toNat
    Digits.ofNat scaled (first + 1 - count)
  | fuel + 1, count =>
    let place := first + 1 - (count : Int)
    match nearest (candidates x place) with
    | some k => Digits.ofNat k place
    | none => search x first fuel (count + 1)

/-- The shortest digits that read back as the number. Seventeen always do. -/
def shortest (x : Magnitude) : Digits :=
  if x.m = 0 then ⟨['0'], 0⟩ else search x (leading x) 17 1

end BuildGraph.Decimal
