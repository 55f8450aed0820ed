import TypeGen.Text.Blank
import TypeGen.Text.Digest
import TypeGen.Text.Json

/-!
Metadata: the comment by which a generated file tells what it was generated from. Between a line
that is the tag and a line that ends the comment stands a JSON object; blanks around either line do
not count.
-/

namespace TypeGen.Project

open TypeGen.Text

structure Metadata where
  /-- The hash of the spec's text. -/
  generatedFrom : String
  deriving DecidableEq, Repr

namespace Metadata

def tag : String := "/* dtgen-data"

def closing : String := "*/"

def key : String := "generated_from"

def ofSpec (text : String) : Metadata := ⟨Digest.contentHash text⟩

/-- The object that is written. -/
def json (m : Metadata) : String :=
  "\x7b\n  \"" ++ key ++ "\": " ++ String.ofList (Json.encode m.generatedFrom.toList) ++ "\n\x7d"

/-- The comment, with the line feed behind it. -/
def render (m : Metadata) : String := tag ++ "\n" ++ m.json ++ "\n" ++ closing ++ "\n"

/-! ### Reading -/

/-- Reads the members of an object up to its closing brace. The key stands there once; `found` is
its value so far. -/
def readMembers : Nat → Option String → List Char → Option (String × List Char)
  | 0, _, _ => none
  | fuel + 1, found, cs => do
    let (name, rest) ← Json.readString (Json.skipSpace cs)
    match Json.skipSpace rest with
    | ':' :: rest =>
      let (found, rest) ←
        if name = key then
          if found.isSome then none
          else (Json.readString (Json.skipSpace rest)).map fun (s, rest) => (some s, rest)
        else (Json.skip rest).map fun rest => (found, rest)
      match Json.skipSpace rest with
      | ',' :: rest => readMembers fuel found rest
      | '\x7d' :: rest => found.map (·, rest)
      | _ => none
    | _ => none

/-- Reads the object, or an array that holds the value alone. -/
def readValue (cs : List Char) : Option (String × List Char) :=
  match Json.skipSpace cs with
  | '\x7b' :: rest => readMembers (rest.length + 1) none rest
  | '[' :: rest => do
    let (s, rest) ← Json.readString (Json.skipSpace rest)
    match Json.skipSpace rest with
    | ']' :: rest => some (s, rest)
    | _ => none
  | _ => none

def ofJson? (cs : List Char) : Option Metadata := do
  let (s, rest) ← readValue cs
  if (Json.skipSpace rest).isEmpty then some ⟨s⟩ else none

/-- Lines that are the given text, blanks aside. -/
def isLine (s : String) (line : List Char) : Bool := trim line = s.toList

/-- The metadata of the first tag in a text, if its comment is in order. -/
def parse? (text : String) : Option Metadata :=
  match (lines text.toList).dropWhile (!isLine tag ·) with
  | [] => none
  | _ :: rest => ofJson? (['\n'].intercalate (rest.takeWhile (!isLine closing ·)))

end Metadata

end TypeGen.Project
