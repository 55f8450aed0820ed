import TypeGen.Spec.Basic
import TypeGen.Text.Blank

/-!
Names in the generated code: how a type is written from inside and from outside of its namespace,
and type variables that clash with none of its parameters.
-/

namespace TypeGen.Render

open TypeGen.Spec TypeGen.Text

/-- Parameters as the arguments of a template; nothing for a type without any. -/
def templateArgs (params : List String) : String :=
  if params.isEmpty then "" else "<" ++ joinWith ", " params ++ ">"

/-- The type as it is written inside of its namespace. -/
def unqualified (h : Head) : String := h.name ++ templateArgs h.params

/-- The type as it is written from anywhere. -/
def qualified (h : Head) : String :=
  match h.space with
  | some space => "::" ++ space ++ "::" ++ unqualified h
  | none => "::" ++ unqualified h

/-- A type variable that is no parameter: the stem, or else the stem with the least number that
makes it new. Among one number more than there are parameters, one does. -/
def freshVariable (params : List String) (stem : String) : String :=
  if params.contains stem then
    match (List.range (params.length + 1)).find? fun i => !params.contains (stem ++ toString i) with
    | some i => stem ++ toString i
    | none => stem
  else stem

/-- The statement that refuses an index beyond the alternatives. -/
def throwUnknownIndex (index typeName : String) : String :=
  "throw std::runtime_error(\"Unknown index \" + std::to_string(" ++ index ++
    ") + \" for type " ++ typeName ++ "\");"

end TypeGen.Render
