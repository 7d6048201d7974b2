import BuildGraph.Decimal.Shortest

/-!
# Decimal layout

Digits are written positionally while the power of ten of the first one is within limits, and otherwise as one
digit, a point with the others behind it, and the power with its sign. The limits are a `Layout`.
-/

namespace BuildGraph.Decimal

structure Layout where
  lowest : Int
  highest : Int
deriving DecidableEq, Repr

/-- Digits with a point in them or zeros around them, so that the point has a digit on either side. -/
def positional (d : Digits) : List Char :=
  if d.exponent < 0 then
    '0' :: '.' :: List.replicate (-d.exponent - 1).toNat '0' ++ d.digits
  else
    let whole := d.exponent.toNat + 1
    if d.digits.length ≤ whole then
      d.digits ++ List.replicate (whole - d.digits.length) '0' ++ ['.', '0']
    else d.digits.take whole ++ '.' :: d.digits.drop whole

/-- Digits with the power of ten behind an `e`; the power always has a sign. -/
def scientific (d : Digits) : List Char :=
  let mantissa := match d.digits with
    | [] => []
    | [c] => [c]
    | c :: cs => c :: '.' :: cs
  mantissa ++ 'e' :: (if d.exponent < 0 then '-' else '+') :: Nat.toDigits 10 d.exponent.natAbs

def layOut (l : Layout) (d : Digits) : List Char :=
  if l.lowest ≤ d.exponent ∧ d.exponent ≤ l.highest then positional d else scientific d

/-- The text of a finite binary64 number: sign, then the shortest digits that read back. -/
def ofBits (l : Layout) (bits : UInt64) : List Char :=
  let magnitude := layOut l (shortest (Magnitude.ofBits bits))
  if isNegative bits then '-' :: magnitude else magnitude

end BuildGraph.Decimal
