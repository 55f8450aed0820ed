import TypeGen.Text.Blank

/-!
Functions and member functions of the generated code. One description gives both forms: the
declaration, and the definition, which stands outside of the class when the function has a scope.
-/

namespace TypeGen.Code

open TypeGen.Text

/-- A parameter; without a name it is its type alone. -/
structure Param where
  type : String
  name : String
  deriving DecidableEq, Repr

structure Function where
  name : String
  /-- What qualifies the name in a definition outside of the class. -/
  scope : Option String
  /-- Constructors return nothing. -/
  returns : Option String
  /-- Template parameters of the function itself. -/
  template : List String
  params : List Param
  isStatic : Bool
  isExplicit : Bool
  isConst : Bool
  /-- Members and the expressions that they are initialized with. -/
  inits : List (String × String)
  deriving DecidableEq, Repr

/-- A function that has a name and nothing else. -/
def Function.named (name : String) : Function := ⟨name, none, none, [], [], false, false, false, []⟩

/-- A type and a name behind it; no space follows a reference or a pointer. -/
def attach (type name : String) : String :=
  match type.toList.getLast? with
  | some '&' => type ++ name
  | some '*' => type ++ name
  | _ => type ++ " " ++ name

def Param.render (p : Param) : String := if p.name = "" then p.type else attach p.type p.name

namespace Function

/-- The signature from the return type on, under a given name. -/
def signatureAs (f : Function) (name : String) : String :=
  let head := match f.returns with
    | some type => attach type name
    | none => name
  head ++ "(" ++ joinWith ", " (f.params.map Param.render) ++ ")" ++
    (if f.isConst then " const" else "")

/-- What a declaration says ahead of the signature. -/
def specifiers (f : Function) : String :=
  (if f.isStatic then "static " else "") ++ (if f.isExplicit then "explicit " else "")

/-- The signature in a declaration. -/
def declaration (f : Function) : String := f.specifiers ++ f.signatureAs f.name

/-- The signature in a definition: with a scope the name is qualified by it and the specifiers are
dropped. -/
def definition (f : Function) : String :=
  match f.scope with
  | some scope => f.signatureAs (scope ++ "::" ++ f.name)
  | none => f.declaration

/-- The initializers, behind a colon. -/
def initializers (f : Function) : String :=
  if f.inits.isEmpty then ""
  else " : " ++ joinWith ", " (f.inits.map fun (member, e) => member ++ "(" ++ e ++ ")")

end Function

end TypeGen.Code
