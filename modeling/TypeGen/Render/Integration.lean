import TypeGen.Render.Names
import TypeGen.Render.Registry
import TypeGen.Text.Quoted

/-!
What structs, enums and variants have in common when they are tied to libraries: comparison,
hashing, JSON, generators of random values and formatting specialize the same templates, and only
the bodies differ. Each function is described once, for its declaration and for its definition; the
emitter of a feature is made from what differs.
-/

namespace TypeGen.Render

open TypeGen.Code TypeGen.Spec TypeGen.Text

variable {S : Type} [HasHead S]

/-- The definition of a member outside of its class, under the template of a generic class. -/
def memberDef (h : Head) (f : Function) (body : List Step) : List Step :=
  [.template h.params false, .define f body]

/-- A member that compares with another value of the type. -/
def comparison (h : Head) (op : String) : Function :=
  { Function.named ("operator" ++ op) with
    scope := some (unqualified h)
    returns := some "bool"
    params := [⟨unqualified h ++ " const &", "other"⟩]
    isConst := true }

/-! ### Comparison -/

def eqOps : List String := ["==", "!="]

def ordOps : List String := ["<", ">", "<=", ">="]

def comparisonDecls (h : Head) (ops : List String) : List Step :=
  ops.map fun op => .declare (comparison h op)

def comparisonDefs (h : Head) (ops : List String) (body : String → List Step) : List Step :=
  [.join "\n" (ops.map fun op => memberDef h (comparison h op) (body op))]

/-- Operators that are members; `body` defines each. -/
def comparisonEmitter (needs : List Include) (ops : List String)
    (body : S → String → List Step) : Emitter S where
  headerIncludes := needs
  sourceIncludes := []
  emit
    | .memberDecls => some fun s => comparisonDecls (HasHead.head s) ops
    | .memberDefs => some fun s => comparisonDefs (HasHead.head s) ops (body s)
    | _ => none

/-- A template of a library, specialized for the type, with member functions declared in it. -/
def specialization (h : Head) (space template : String) (members : List Function) : List Step :=
  [.inSpace (some space)
    [.struct (template ++ "<" ++ qualified h ++ ">") h.params true (members.map .declare)]]

/-! ### Hashing -/

def hashFunction (h : Head) (param : String) : Function :=
  { Function.named "operator()" with
    scope := some ("hash<" ++ qualified h ++ ">")
    returns := some "size_t"
    params := [⟨param, "x"⟩]
    isConst := true }

def hashDecls (h : Head) (param : String) : List Step :=
  specialization h "std" "hash" [hashFunction h param]

def hashDefs (h : Head) (param : String) (body : List Step) : List Step :=
  [.inSpace (some "std") (memberDef h (hashFunction h param) body)]

/-- Hashing of a parameter of type `param`. -/
def hashEmitter (param : S → String) (body : S → List Step) : Emitter S where
  headerIncludes := [.ofSystem "functional"]
  sourceIncludes := []
  emit
    | .decls => some fun s => hashDecls (HasHead.head s) (param s)
    | .defs => some fun s => hashDefs (HasHead.head s) (param s) (body s)
    | _ => none

/-! ### JSON -/

def fromJson (h : Head) : Function :=
  { Function.named "from_json" with
    scope := some ("adl_serializer<" ++ qualified h ++ ">")
    returns := some (qualified h)
    params := [⟨"json const &", "j"⟩]
    isStatic := true }

def toJson (h : Head) (param : String) : Function :=
  { Function.named "to_json" with
    scope := some ("adl_serializer<" ++ qualified h ++ ">")
    returns := some "void"
    params := [⟨"json &", "j"⟩, ⟨param, "x"⟩]
    isStatic := true }

def jsonDecls (h : Head) (param : String) : List Step :=
  specialization h "nlohmann" "adl_serializer" [fromJson h, toJson h param]

def jsonDefs (h : Head) (param : String) (reading writing : List Step) : List Step :=
  [.inSpace (some "nlohmann")
    (memberDef h (fromJson h) reading ++ [.blank] ++ memberDef h (toJson h param) writing)]

/-- The key under which the name of the type is written. -/
def typeKey : String := "__type"

/-- Writes a value under a key. -/
def assignKey (key value : String) : Step :=
  .line ("j[" ++ Quoted.literal key ++ "] = " ++ value ++ ";")

/-- Reading from JSON and writing to it. -/
def jsonEmitter (needs : List Include) (param : S → String) (reading writing : S → List Step) :
    Emitter S where
  headerIncludes := [.ofSystem "nlohmann/json.hpp"]
  sourceIncludes := needs
  emit
    | .decls => some fun s => jsonDecls (HasHead.head s) (param s)
    | .defs => some fun s => jsonDefs (HasHead.head s) (param s) (reading s) (writing s)
    | _ => none

/-! ### Generators -/

def arbitraryFunction (h : Head) : Function :=
  { Function.named "arbitrary" with
    scope := some ("Arbitrary<" ++ qualified h ++ ">")
    returns := some ("Gen<" ++ qualified h ++ ">")
    isStatic := true }

def arbitraryDecls (h : Head) : List Step :=
  specialization h "rc" "Arbitrary" [arbitraryFunction h]

def arbitraryDefs (h : Head) (generator : String) : List Step :=
  [.inSpace (some "rc")
    (memberDef h (arbitraryFunction h) [.line ("return " ++ generator ++ ";")])]

/-- The generator of random values. -/
def arbitraryEmitter (generator : S → String) : Emitter S where
  headerIncludes := [.ofSystem "rapidcheck.h"]
  sourceIncludes := []
  emit
    | .decls => some fun s => arbitraryDecls (HasHead.head s)
    | .defs => some fun s => arbitraryDefs (HasHead.head s) (generator s)
    | _ => none

/-! ### Formatting -/

def formatFunction (h : Head) (param : String) : Function :=
  { Function.named "format_as" with
    template := h.params
    returns := some "std::string"
    params := [⟨param, "x"⟩] }

def streamFunction (h : Head) (param : String) : Function :=
  { Function.named "operator<<" with
    template := h.params
    returns := some "std::ostream &"
    params := [⟨"std::ostream &", "s"⟩, ⟨param, "x"⟩] }

def fmtDecls (h : Head) (param : String) : List Step :=
  [.inSpace h.space [.declare (formatFunction h param), .declare (streamFunction h param)]]

/-- Streams take the text that `format_as` makes. -/
def fmtDefs (h : Head) (param : String) (body : List Step) : List Step :=
  [.inSpace h.space
    [.define (formatFunction h param) body,
      .blank,
      .define (streamFunction h param) [.line "return s << fmt::to_string(x);"]]]

/-- Formatting as text and into a stream. -/
def fmtEmitter (needs : List Include) (param : S → String) (body : S → List Step) : Emitter S where
  headerIncludes := [.ofSystem "string", .ofSystem "ostream", .ofSystem "fmt/format.h"]
  sourceIncludes := needs
  emit
    | .decls => some fun s => fmtDecls (HasHead.head s) (param s)
    | .defs => some fun s => fmtDefs (HasHead.head s) (param s) (body s)
    | _ => none

end TypeGen.Render
