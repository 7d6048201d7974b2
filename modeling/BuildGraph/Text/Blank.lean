/-!
# White space

`isBlank` holds of the characters with the Unicode property `White_Space`. The property is closed: no later
version of the standard adds to it. `trim` drops blanks at both ends of a text and keeps those inside.
-/

namespace BuildGraph.Text

/-- The character has the property `White_Space`. -/
def isBlank (c : Char) : Bool :=
  let n := c.toNat
  (0x09 ≤ n && n ≤ 0x0d) || n == 0x20 || n == 0x85 || n == 0xa0 || n == 0x1680 ||
    (0x2000 ≤ n && n ≤ 0x200a) || n == 0x2028 || n == 0x2029 || n == 0x202f || n == 0x205f || n == 0x3000

/-- The text without the blanks at its two ends. -/
def trim (cs : List Char) : List Char :=
  ((cs.dropWhile isBlank).reverse.dropWhile isBlank).reverse

end BuildGraph.Text
