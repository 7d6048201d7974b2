/-!
# Lines and damaged text

A newline ends a line, and a carriage return in front of it belongs to it; text behind the last newline is a
line only if there is any. `ofBytes` reads bytes as UTF-8 where they are UTF-8 and as replacement characters
elsewhere, so every file has lines.
-/

namespace BuildGraph.Text

def dropReturn (line : List Char) : List Char :=
  if line.getLast? = some '\r' then line.dropLast else line

/-- The lines among the pieces between newlines: the last piece was not ended by one. -/
def linesOf : List (List Char) → List (List Char)
  | [] => []
  | [piece] => if piece = [] then [] else [piece]
  | piece :: p :: ps => dropReturn piece :: linesOf (p :: ps)

def lines (cs : List Char) : List (List Char) := linesOf (cs.splitOn '\n')

/-- The character that stands for a byte that belongs to none. -/
def replacement : Char := '\ufffd'

/-- The text of some bytes. A byte that begins no character is replaced. -/
def ofBytes : List UInt8 → List Char
  | [] => []
  | b :: rest =>
    match ByteArray.utf8DecodeChar? ⟨(b :: rest.take 3).toArray⟩ 0 with
    | some c => c :: ofBytes (rest.drop (c.utf8Size - 1))
    | none => replacement :: ofBytes rest
termination_by bs => bs.length
decreasing_by
  · simp only [List.length_drop, List.length_cons]; omega
  · simp

end BuildGraph.Text
