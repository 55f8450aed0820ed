import TypeGen.Render.Registry

/-!
The outline of a header and of its source. A kind of spec says how its type and its members are
written; includes, namespaces and the order of features are the same for all. The definitions of a
generic type stand in its header, and its source is empty.
-/

namespace TypeGen.Render

open TypeGen.Code TypeGen.Spec TypeGen.Text

/-- How specs of one kind are written. -/
structure Renderer (S : Type) where
  registry : Registry S
  /-- Includes that every header of the kind needs. -/
  intrinsic : S → List Include
  /-- The definition of the type, inside of its namespace. -/
  type : S → List Step
  /-- Whether members are defined apart from those of the features. -/
  hasMembers : S → Bool
  /-- The definitions of these members. -/
  members : S → List Step

/-- A forward declaration without blanks around it and without semicolons at its end. -/
def bareDeclaration (s : String) : String :=
  String.ofList (dropEnd (· = ';') (trim s.toList))

namespace Renderer

variable {S : Type} [HasHead S]

/-- The includes of the definitions: what is declared, then what the features need. -/
def sourceIncludes (r : Renderer S) (s : S) : IncludeList :=
  (IncludeList.ofList (HasHead.head s).sourceIncludes).extend (r.registry.sourceIncludes s)

/-- The includes of the header: what is declared, what the kind needs, what the features need, and
for a generic type what its definitions need. -/
def headerIncludes (r : Renderer S) (s : S) : IncludeList :=
  let own := ((IncludeList.ofList (HasHead.head s).includes).extend (r.intrinsic s)).extend
    (r.registry.headerIncludes s)
  if (HasHead.head s).isGeneric then own.merge (r.sourceIncludes s) else own

/-- All definitions: members in the namespace of the type, then those outside of it. -/
def definitions (r : Renderer S) (s : S) : List Step :=
  (if r.hasMembers s || r.registry.hasMemberDefs s then
    [.blank, .inSpace (HasHead.head s).space
      (r.members s ++ r.registry.emitAll .memberDefs s)]
  else []) ++ r.registry.emitAll .defs s

/-- Forward declarations, then the documented type. -/
def typeSection (r : Renderer S) (s : S) : List Step :=
  let h := HasHead.head s
  (if h.forwards.isEmpty then []
    else [.spaced (h.forwards.map fun d => .semicolon [.text (bareDeclaration d)])]) ++
  (h.doc.toList.map Step.doc) ++ r.type s

/-- The body of a header, between its guards. -/
def header (r : Renderer S) (s : S) : List Step :=
  let h := HasHead.head s
  let includes := r.headerIncludes s
  (if includes.isEmpty then [] else [.spaced [.includes includes]]) ++
  [.inSpace h.space (r.typeSection s)] ++
  (if h.postIncludes.isEmpty then []
    else [.blank, .includes (IncludeList.ofList h.postIncludes)]) ++
  r.registry.emitAll .decls s ++
  (if h.isGeneric then r.definitions s else [])

/-- The body of a source, behind the include of its header. -/
def source (r : Renderer S) (s : S) : List Step :=
  if (HasHead.head s).isGeneric then []
  else .includes (r.sourceIncludes s) :: r.definitions s

end Renderer

end TypeGen.Render
