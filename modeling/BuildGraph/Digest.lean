import BuildGraph.Sha256
import BuildGraph.Text.Cut

/-!
# Digests

A digest identifies a piece of content by its hash: the name of the hash function, a colon, and the hash in
lowercase hexadecimal. Digests that are read from a file can be any text; that they fit the content is checked
elsewhere, by computing them again. Digests are ordered as texts.
-/

namespace BuildGraph

/-- The two hexadecimal digits of a byte. -/
def hexByte (b : UInt8) : List Char := [Nat.digitChar (b.toNat / 16), Nat.digitChar (b.toNat % 16)]

/-- Bytes in lowercase hexadecimal. -/
def hexText (bytes : List UInt8) : List Char := bytes.flatMap hexByte

/-- The hash of a file's or a text's content, 64 hexadecimal digits. -/
def contentHash (bytes : List UInt8) : String := String.ofList (hexText (Sha256.hash bytes))

/-- The identity of a piece of content. -/
structure Digest where
  text : String
deriving DecidableEq, Repr

namespace Digest

instance : ToString Digest := ⟨Digest.text⟩

/-- The name of the hash function in front of every digest. -/
def algorithm : String := "sha256"

def ofBytes (bytes : List UInt8) : Digest := ⟨algorithm ++ ":" ++ contentHash bytes⟩

/-- What follows the first colon, or all of it where there is none. -/
def hexPart (text : String) : List Char :=
  match Text.cutFirst? ':' text.toList with
  | some (_, hex) => hex
  | none => text.toList

def hex (d : Digest) : String := String.ofList (hexPart d.text)

/-- The longest part of a text that has at most `size` bytes, where that limit does not fall inside a
character. -/
def cutBytes? : Nat → List Char → Option (List Char)
  | _, [] => some []
  | 0, _ :: _ => some []
  | size + 1, c :: cs =>
    if c.utf8Size ≤ size + 1 then (cutBytes? (size + 1 - c.utf8Size) cs).map (c :: ·) else none

/-- The number of bytes of the short form. -/
def shortSize : Nat := 12

/-- The first twelve bytes behind the colon of a digest's text. -/
def shorten? (text : String) : Option String :=
  (cutBytes? shortSize (hexPart text)).map String.ofList

/-- The form for readers. There is none where twelve bytes are not a whole number of characters. -/
def short? (d : Digest) : Option String := shorten? d.text

/-- Digests are compared as texts. -/
def le (a b : Digest) : Bool := decide (a.text ≤ b.text)

end Digest

theorem length_hexText (bytes : List UInt8) : (hexText bytes).length = 2 * bytes.length := by
  induction bytes with
  | nil => rfl
  | cons b bs ih => simp [hexText, hexByte] at ih ⊢; omega

end BuildGraph
