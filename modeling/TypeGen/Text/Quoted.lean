/-!
String literals of the generated code. A quote, a backslash, a line feed and a tab are escaped; all
other characters stand for themselves.
-/

namespace TypeGen.Text.Quoted

/-- One character inside the quotes. -/
def escape : Char → List Char
  | '"' => ['\\', '"']
  | '\\' => ['\\', '\\']
  | '\n' => ['\\', 'n']
  | '\t' => ['\\', 't']
  | c => [c]

/-- The literal that denotes a text, quotes included. -/
def encode (cs : List Char) : List Char := '"' :: (cs.flatMap escape ++ ['"'])

/-- `encode` on strings. -/
def literal (s : String) : String := String.ofList (encode s.toList)

end TypeGen.Text.Quoted
