import TypeGen.Render.Integration
import TypeGen.Render.Outline
import TypeGen.Text.Quoted

/-!
Enums: a scoped enumeration. Its comparisons are built in, so it has no members.
-/

namespace TypeGen.Render

open TypeGen.Code TypeGen.Spec TypeGen.Text

namespace EnumSpec

def typeSteps (s : EnumSpec) : List Step :=
  [.semicolon
    [.text ("enum class " ++ s.name),
      .braces [.join ",\n" (s.values.map fun v => [.text v.name])]]]

/-- Refuses a value that is no enumerator, such as one that a number was cast to. -/
def throwUnknownValue (s : EnumSpec) : Step :=
  .line ("throw std::runtime_error(\"Unknown " ++ s.name ++
    " value \" + std::to_string(static_cast<int>(x)));")

def enumerator (s : EnumSpec) (v : Enumerator) : String := qualified s.toHead ++ "::" ++ v.name

/-! ### Features -/

def hashBody : List Step := [.line "return std::hash<int>\x7b\x7d(static_cast<int>(x));"]

def readBody (s : EnumSpec) : List Step :=
  [.line "std::string as_str = j.get<std::string>();",
    .ifChain
      (s.values.map fun v =>
        ("as_str == " ++ Quoted.literal v.jsonKey, [.line ("return " ++ enumerator s v ++ ";")]))
      [.line ("throw std::runtime_error(\"Unknown " ++ s.name ++ " value \" + as_str);")]]

def writeBody (s : EnumSpec) : List Step :=
  [.switch "x"
    ((s.values.map fun v =>
        .case (enumerator s v) true [.line ("j = " ++ Quoted.literal v.jsonKey ++ ";")]) ++
      [.default false [throwUnknownValue s]])]

def generator (s : EnumSpec) : String :=
  "gen::element<" ++ qualified s.toHead ++ ">(" ++ joinWith ", " (s.values.map (enumerator s)) ++
    ")"

def fmtBody (s : EnumSpec) : List Step :=
  [.switch "x"
    ((s.values.map fun v =>
        .case (s.name ++ "::" ++ v.name) false
          [.line ("return " ++ Quoted.literal v.name ++ ";")]) ++
      [.default false [throwUnknownValue s]])]

/-- How a value is passed to functions outside of the namespace of the type. -/
def param (s : EnumSpec) : String := qualified s.toHead

def registry : Registry EnumSpec where
  get?
    | .eq => none
    | .ord => none
    | .hash => some (hashEmitter param fun _ => hashBody)
    | .json =>
      some (jsonEmitter [.ofSystem "stdexcept", .ofSystem "string"] param readBody writeBody)
    | .rapidcheck => some (arbitraryEmitter generator)
    | .fmt => some (fmtEmitter [.ofSystem "stdexcept"] (·.name) fmtBody)

def renderer : Renderer EnumSpec where
  registry := registry
  intrinsic _ := []
  type := typeSteps
  hasMembers _ := false
  members _ := []

end EnumSpec

end TypeGen.Render
