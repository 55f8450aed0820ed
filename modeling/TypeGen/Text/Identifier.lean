/-!
Identifiers. Folding makes any text fit for an identifier of the target language, character by
character, so the folded text is as long as the given one.
-/

namespace TypeGen.Text

/-- Letters, digits and the underscore, of ASCII alone. -/
def isWordChar (c : Char) : Bool := c.isAlphanum || c = '_'

/-- Every character that no identifier holds becomes an underscore. -/
def foldIdentifier (s : String) : String :=
  String.ofList (s.toList.map fun c => if isWordChar c then c else '_')

/-- The folded text in capitals, as include guards are written. -/
def guardIdentifier (s : String) : String :=
  String.ofList ((foldIdentifier s).toList.map Char.toUpper)

end TypeGen.Text
