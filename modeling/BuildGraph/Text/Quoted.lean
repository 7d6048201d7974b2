import BuildGraph.Text.Visible

/-!
# Quoted text

Messages show names and paths between double quotes. A quote and a backslash get a backslash in front, the
newline, the carriage return, the tab and the null character have letters of their own, and any other character
that is not visible is written as its code point in hexadecimal between braces.
-/

namespace BuildGraph.Text

def quoteChar (c : Char) : List Char :=
  if c = '"' then ['\\', '"']
  else if c = '\\' then ['\\', '\\']
  else if c = '\n' then ['\\', 'n']
  else if c = '\r' then ['\\', 'r']
  else if c = '\t' then ['\\', 't']
  else if c = '\x00' then ['\\', '0']
  else if isVisible c then [c]
  else '\\' :: 'u' :: '\x7b' :: Nat.toDigits 16 c.toNat ++ ['\x7d']

def quote (s : String) : String :=
  String.ofList ('"' :: s.toList.flatMap quoteChar ++ ['"'])

end BuildGraph.Text
