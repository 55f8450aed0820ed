import TypeGen.Render.Integration
import TypeGen.Render.Outline
import TypeGen.Text.Quoted

/-!
Structs: a product type with a constructor that takes every field. Indirect fields are kept behind a
shared pointer and read through an accessor.
-/

namespace TypeGen.Render

open TypeGen.Code TypeGen.Spec TypeGen.Text

namespace StructSpec

/-- The value by which the constructor initializes a field. -/
def initial (f : StructField) : String :=
  if f.indirect then "std::make_shared<" ++ f.type ++ ">(" ++ f.name ++ ")" else f.name

def constructor (s : StructSpec) : Function :=
  { Function.named s.name with
    scope := some (unqualified s.toHead)
    params := s.fields.map fun f => ⟨f.type ++ " const &", f.name⟩
    isExplicit := true
    inits := s.fields.map fun f => (f.name, initial f) }

def accessor (s : StructSpec) (f : StructField) : Function :=
  { Function.named ("get_" ++ f.name) with
    scope := some (unqualified s.toHead)
    returns := some (f.type ++ " const &")
    isConst := true }

/-- How a field is read through an object. -/
def access (object : String) (f : StructField) : String :=
  if f.indirect then object ++ "get_" ++ f.name ++ "()" else object ++ f.name

/-- All fields of an object, tied together. -/
def tie (s : StructSpec) (object : String) : String :=
  "std::tie(" ++ joinWith ", " (s.fields.map (access object)) ++ ")"

def constRef (s : StructSpec) : String := qualified s.toHead ++ " const &"

/-! ### The type -/

/-- What the body of the type says of a field. -/
def fieldSteps (s : StructSpec) (f : StructField) : List Step :=
  f.doc.toList.map Step.doc ++
    [if f.indirect then .declare (accessor s f) else .line (f.type ++ " " ++ f.name ++ ";")]

/-- The pointers behind the accessors. -/
def privateSteps (s : StructSpec) : List Step :=
  [.blank, .dedent, .line "private:", .indent] ++
    (s.fields.filter (·.indirect)).map fun f =>
      .line ("std::shared_ptr<" ++ f.type ++ "> " ++ f.name ++ ";")

def typeSteps (registry : Registry StructSpec) (s : StructSpec) : List Step :=
  [.struct s.name s.params false
    ((if s.fields.isEmpty then []
        else [.line (s.name ++ "() = delete;"), .declare (constructor s)]) ++
      registry.emitAll .memberDecls s ++
      (if s.fields.isEmpty then [] else [.blank]) ++
      s.fields.flatMap (fieldSteps s) ++
      (if s.hasIndirect then privateSteps s else []))]

/-- The constructor, then the accessors. -/
def memberSteps (s : StructSpec) : List Step :=
  memberDef s.toHead (constructor s) [] ++
    (s.fields.filter (·.indirect)).flatMap fun f =>
      .blank :: memberDef s.toHead (accessor s f) [.line ("return *this->" ++ f.name ++ ";")]

/-! ### Features -/

/-- Compares all fields at once. -/
def comparisonBody (s : StructSpec) (op : String) : List Step :=
  [.line ("return " ++ tie s "this->" ++ " " ++ op ++ " " ++ tie s "other." ++ ";")]

/-- Mixes the hash of a field into the result. -/
def hashLine (f : StructField) : Step :=
  .line ("result ^= std::hash<" ++ f.type ++ ">\x7b\x7d(" ++ access "x." f ++
    ") + 0x9e3779b9 + (result << 6) + (result >> 2);")

def hashBody (s : StructSpec) : List Step :=
  [.line "size_t result = 0;"] ++ s.fields.map hashLine ++ [.line "return result;"]

/-- The argument that a field is read from. -/
def jsonArgument (f : StructField) : String :=
  "j.at(" ++ Quoted.literal f.jsonKey ++ ").template get<" ++ f.type ++ ">()"

def readBody (s : StructSpec) : List Step :=
  [.line ("return " ++ qualified s.toHead ++ "\x7b" ++ joinWith ", " (s.fields.map jsonArgument) ++
    "\x7d;")]

/-- What is written to JSON: the name of the type, then every field under its key. -/
def written (s : StructSpec) : List (String × String) :=
  (typeKey, Quoted.literal s.name) :: s.fields.map fun f => (f.jsonKey, access "x." f)

def writeBody (s : StructSpec) : List Step :=
  (written s).map fun (key, value) => assignKey key value

def generator (s : StructSpec) : String :=
  "gen::construct<" ++ qualified s.toHead ++ ">(" ++
    joinWith ", " (s.fields.map fun f => "gen::arbitrary<" ++ f.type ++ ">()") ++ ")"

def fmtParam (s : StructSpec) : String := unqualified s.toHead ++ " const &"

def fmtBody (s : StructSpec) : List Step :=
  [.line "std::ostringstream oss;", .line ("oss << \"<" ++ s.name ++ "\";")] ++
    (s.fields.map fun f =>
      .line ("oss << \" " ++ f.name ++ "=\" << " ++ access "x." f ++ ";")) ++
    [.line "oss << \">\";", .line "return oss.str();"]

def registry : Registry StructSpec where
  get?
    | .eq => some (comparisonEmitter [.ofSystem "tuple"] eqOps comparisonBody)
    | .ord => some (comparisonEmitter [.ofSystem "tuple"] ordOps comparisonBody)
    | .hash => some (hashEmitter constRef hashBody)
    | .json => some (jsonEmitter [] constRef readBody writeBody)
    | .rapidcheck => some (arbitraryEmitter generator)
    | .fmt => some (fmtEmitter [.ofSystem "sstream"] fmtParam fmtBody)

def renderer : Renderer StructSpec where
  registry := registry
  intrinsic s := if s.hasIndirect then [.ofSystem "memory"] else []
  type := typeSteps registry
  hasMembers s := !s.fields.isEmpty
  members := memberSteps

end StructSpec

end TypeGen.Render
