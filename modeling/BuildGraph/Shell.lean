/-!
# Command words

A command line is split into words the way a POSIX shell does it, without expanding anything. Words are
separated by space, tab and newline. A `#` where a word could begin opens a comment up to the end of the line.
A backslash takes the next character as it is, and together with a newline it vanishes. Nothing is special
inside single quotes; inside double quotes a backslash is special only before `$`, a backquote, `"`, `\` and a
newline. A line that ends inside quotes or after a backslash has no words.

The splitter is one pass over the characters, in a state that says where in a word it is.
-/

namespace BuildGraph.Shell

inductive Place
  | gap
  | comment
  | word
  | escaped
  | single
  | double
  | doubleEscaped
deriving DecidableEq, Repr

def isSeparator (c : Char) : Bool := c == ' ' || c == '\t' || c == '\n'

/-- The characters that a backslash takes as they are inside double quotes. -/
def isDoubleSpecial (c : Char) : Bool := c == '$' || c == '\x60' || c == '"' || c == '\\'

/-- The words of the rest of a line, where `word` holds what the open word has so far, the last first. -/
def scan : Place → List Char → List Char → Option (List (List Char))
  | .gap, _, [] | .comment, _, [] => some []
  | .word, word, [] => some [word.reverse]
  | .escaped, _, [] | .single, _, [] | .double, _, [] | .doubleEscaped, _, [] => none
  | .gap, _, c :: cs =>
    if isSeparator c then scan .gap [] cs
    else if c = '#' then scan .comment [] cs
    else if c = '"' then scan .double [] cs
    else if c = '\'' then scan .single [] cs
    else if c = '\\' then scan .escaped [] cs
    else scan .word [c] cs
  | .comment, _, c :: cs => scan (if c = '\n' then .gap else .comment) [] cs
  | .word, word, c :: cs =>
    if isSeparator c then (scan .gap [] cs).map (word.reverse :: ·)
    else if c = '"' then scan .double word cs
    else if c = '\'' then scan .single word cs
    else if c = '\\' then scan .escaped word cs
    else scan .word (c :: word) cs
  | .escaped, word, c :: cs => scan .word (if c = '\n' then word else c :: word) cs
  | .single, word, c :: cs => if c = '\'' then scan .word word cs else scan .single (c :: word) cs
  | .double, word, c :: cs =>
    if c = '"' then scan .word word cs
    else if c = '\\' then scan .doubleEscaped word cs
    else scan .double (c :: word) cs
  | .doubleEscaped, word, c :: cs =>
    if c = '\n' then scan .double word cs
    else if isDoubleSpecial c then scan .double (c :: word) cs
    else scan .double (c :: '\\' :: word) cs

/-- The words of a command line, `none` where it ends inside quotes or after a backslash. -/
def words? (command : String) : Option (List String) :=
  (scan .gap [] command.toList).map (·.map String.ofList)

end BuildGraph.Shell
