import TypeGen.Render.Integration
import TypeGen.Render.Outline
import TypeGen.Text.Quoted

/-!
Variants: a class around `std::variant`. Visiting, membership tests and access are passed on to it,
and types outside of the alternatives are refused when the generated code is compiled.
-/

namespace TypeGen.Render

open TypeGen.Code TypeGen.Spec TypeGen.Text

namespace VariantSpec

/-- The trait that tells whether a type is an alternative. -/
def membershipTrait (s : VariantSpec) : String := "IsPartOf" ++ s.name ++ "_v"

def armTypes (s : VariantSpec) : List String := s.arms.map (·.type)

def rawType (s : VariantSpec) : String := "std::variant<" ++ joinWith ", " (armTypes s) ++ ">"

def constructor (s : VariantSpec) (a : Arm) : Function :=
  { Function.named s.name with
    scope := some (unqualified s.toHead)
    params := [⟨a.type ++ " const &", "v"⟩]
    isExplicit := s.explicitConstructors
    inits := [("raw_variant", "v")] }

def isKey (s : VariantSpec) (a : Arm) : Function :=
  { Function.named ("is_" ++ a.key) with
    scope := some (unqualified s.toHead)
    returns := some "bool"
    isConst := true }

def requireKey (s : VariantSpec) (a : Arm) : Function :=
  { Function.named ("require_" ++ a.key) with
    scope := some (unqualified s.toHead)
    returns := some (a.type ++ " const &")
    isConst := true }

def constRef (s : VariantSpec) : String := qualified s.toHead ++ " const &"

/-! ### Type variables

Templates inside of the class take variables that are no parameters of the class. -/

def typeVariable (s : VariantSpec) : String := freshVariable s.params "T"

def returnVariable (s : VariantSpec) : String := freshVariable s.params "ReturnType"

def visitorVariable (s : VariantSpec) : String := freshVariable s.params "Visitor"

/-! ### The type -/

/-- A case for each arm, numbered from zero, and a default that refuses all other indices. -/
def indexSwitch (s : VariantSpec) (index : String) (leaves : Bool)
    (body : Arm → List Step) : Step :=
  .switch index
    ((s.arms.zipIdx.map fun (a, i) => .case (toString i) leaves (body a)) ++
      [.default false [.line (throwUnknownIndex index s.name)]])

/-- In a generic variant: the visitor returns for this arm what it returns for the first. -/
def sameReturn (s : VariantSpec) (qualifier : String) (first a : Arm) : Step :=
  let visitor := visitorVariable s
  let result (x : Arm) : String :=
    "std::invoke_result_t<" ++ visitor ++ ", " ++ x.type ++ qualifier ++ ">"
  .line ("static_assert(std::is_same_v<" ++ result first ++ ", " ++ result a ++ ">, " ++
    Quoted.literal (s.name ++
      "::visit() requires the visitor to return the same type for every alternative") ++ ");")

/-- Dispatches on the index, so that a visitor need not take all alternatives at once. -/
def visitStep (s : VariantSpec) (isConst : Bool) : Step :=
  let qualifier := if isConst then " const &" else " &"
  .define
    { Function.named "visit" with
      template := [returnVariable s, visitorVariable s]
      returns := some (returnVariable s)
      params := [⟨visitorVariable s ++ " &&", "v"⟩]
      isConst := isConst }
    ((match s.toHead.isGeneric, s.arms with
      | true, first :: rest => rest.map (sameReturn s qualifier first)
      | _, _ => []) ++
    [indexSwitch s "this->index()" false fun a =>
      [.line ("return v(this->template get<" ++ a.type ++ ">());")]])

/-- The check that a type is an alternative. -/
def memberCheck (s : VariantSpec) (method : String) : Step :=
  .line ("static_assert(" ++ membershipTrait s ++ "<" ++ typeVariable s ++ ">, " ++
    Quoted.literal (s.name ++ "::" ++ method ++ "() expected one of [" ++
      joinWith ", " (armTypes s) ++ "], received " ++ typeVariable s) ++ ");")

def hasStep (s : VariantSpec) : Step :=
  .define
    { Function.named "has" with
      template := [typeVariable s], returns := some "bool", isConst := true }
    [memberCheck s "has",
      .line ("return std::holds_alternative<" ++ typeVariable s ++ ">(this->raw_variant);")]

def getStep (s : VariantSpec) (isConst : Bool) : Step :=
  .define
    { Function.named "get" with
      template := [typeVariable s]
      returns := some (typeVariable s ++ (if isConst then " const &" else " &"))
      isConst := isConst }
    [memberCheck s "get", .line ("return std::get<" ++ typeVariable s ++ ">(this->raw_variant);")]

def indexStep : Step :=
  .define { Function.named "index" with returns := some "size_t", isConst := true }
    [.line "return this->raw_variant.index();"]

/-- The definition of the membership trait. -/
def traitSteps (s : VariantSpec) : List Step :=
  [.template [typeVariable s] false,
    .line ("static constexpr bool " ++ membershipTrait s ++ " = " ++
      joinWith " || " ((armTypes s).map fun t =>
        "std::is_same_v<" ++ typeVariable s ++ ", " ++ t ++ ">") ++ ";")]

def keyDecls (s : VariantSpec) : List Step :=
  if s.isKeyed then
    .blank :: s.arms.flatMap fun a => [.declare (isKey s a), .declare (requireKey s a)]
  else []

def typeSteps (registry : Registry VariantSpec) (s : VariantSpec) : List Step :=
  [.struct s.name s.params false
    ([.line (s.name ++ "() = delete;")] ++
      (s.arms.map fun a => .declare (constructor s a)) ++
      [.blank] ++ traitSteps s ++
      [.blank, visitStep s true, .blank, visitStep s false,
        .blank, hasStep s, .blank, getStep s true, .blank, getStep s false, .blank, indexStep] ++
      registry.emitAll .memberDecls s ++
      keyDecls s ++
      [.blank, .line (rawType s ++ " raw_variant;")])]

def keyDefs (s : VariantSpec) : List Step :=
  if s.isKeyed then
    s.arms.flatMap fun a =>
      .blank :: memberDef s.toHead (isKey s a)
        [.line ("return std::holds_alternative<" ++ a.type ++ ">(this->raw_variant);")] ++
      .blank :: memberDef s.toHead (requireKey s a)
        [.line ("return std::get<" ++ a.type ++ ">(this->raw_variant);")]
  else []

/-- The constructors, then the accessors. -/
def memberSteps (s : VariantSpec) : List Step :=
  .join "\n" (s.arms.map fun a => memberDef s.toHead (constructor s a) []) :: keyDefs s

/-! ### Features -/

def comparisonBody (op : String) : List Step :=
  [.line ("return this->raw_variant " ++ op ++ " other.raw_variant;")]

def hashBody : List Step :=
  [.line "return std::hash<decltype(x.raw_variant)>\x7b\x7d(x.raw_variant);"]

def readBody (s : VariantSpec) : List Step :=
  [.line "std::string key = j.at(\"type\").template get<std::string>();",
    .ifChain
      (s.arms.map fun a =>
        ("key == " ++ Quoted.literal a.jsonKey,
          [.line ("return " ++ qualified s.toHead ++ "\x7bj.at(\"value\").template get<" ++
            a.type ++ ">()\x7d;")]))
      [.line ("throw std::runtime_error(\"Unknown type key \" + key + \" for type " ++ s.name ++
        "\");")]]

/-- The name of the type, then the key and the value of the alternative. -/
def writeBody (s : VariantSpec) : List Step :=
  [assignKey typeKey (Quoted.literal s.name),
    indexSwitch s "x.index()" true fun a =>
      [assignKey "type" (Quoted.literal a.jsonKey),
        assignKey "value" ("x.template get<" ++ a.type ++ ">()")]]

def generator (s : VariantSpec) : String :=
  "gen::oneOf(" ++ joinWith ", " (s.arms.map fun a =>
    "gen::construct<" ++ qualified s.toHead ++ ">(gen::arbitrary<" ++ a.type ++ ">())") ++ ")"

def fmtParam (s : VariantSpec) : String := unqualified s.toHead ++ " const &"

def fmtBody (s : VariantSpec) : List Step :=
  [.line "std::ostringstream oss;",
    indexSwitch s "x.index()" true fun a =>
      [.line ("oss << " ++ Quoted.literal ("<" ++ s.name ++ " " ++ a.fmtKey ++ "=") ++
        " << x.template get<" ++ a.type ++ ">() << \">\";")],
    .line "return oss.str();"]

def registry : Registry VariantSpec where
  get?
    | .eq => some (comparisonEmitter [] eqOps fun _ => comparisonBody)
    | .ord => some (comparisonEmitter [] ordOps fun _ => comparisonBody)
    | .hash => some (hashEmitter constRef fun _ => hashBody)
    | .json =>
      some (jsonEmitter [.ofSystem "stdexcept", .ofSystem "string"] constRef readBody writeBody)
    | .rapidcheck => some (arbitraryEmitter generator)
    | .fmt => some (fmtEmitter [.ofSystem "sstream", .ofSystem "stdexcept"] fmtParam fmtBody)

def renderer : Renderer VariantSpec where
  registry := registry
  intrinsic _ :=
    ["cstddef", "stdexcept", "string", "type_traits", "variant"].map .ofSystem
  type := typeSteps registry
  hasMembers _ := true
  members := memberSteps

end VariantSpec

end TypeGen.Render
