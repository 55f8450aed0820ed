import TypeGen.Spec.Basic
import TypeGen.Toml.Value

/-!
Specs as their tables spell them: texts in place of features and includes, keys present or not.
Reading one checks which keys are there and what types they have, and nothing else. No type is
converted, keys that mean nothing are passed over, and the tables of a list may be arrays that give
their keys in order.
-/

namespace TypeGen.Spec

open TypeGen.Toml

/-! ### Reading tables -/

def asText : Value → Option String
  | .string s => some s.text
  | _ => none

def asLocated : Value → Option Located
  | .string s => some s
  | _ => none

def asBoolean : Value → Option Bool
  | .boolean b => some b
  | _ => none

def asList {α : Type} (read : Value → Option α) : Value → Option (List α)
  | .array items => items.mapM read
  | _ => none

/-- The value of a key that has to be there. -/
def required {α : Type} (t : Table) (key : String) (read : Value → Option α) : Option α :=
  (t.lookup key).bind read

/-- The value of a key that may be missing, but not ill-typed. -/
def optional {α : Type} (t : Table) (key : String) (read : Value → Option α) : Option (Option α) :=
  match t.lookup key with
  | none => some none
  | some v => (read v).map some

/-- The value of a key, or a default where it is missing. -/
def withDefault {α : Type} (t : Table) (key : String) (read : Value → Option α) (default : α) :
    Option α :=
  (optional t key read).map (·.getD default)

/-- What stands under keys that mean nothing can at least be represented. -/
def othersFit (keys : List String) (t : Table) : Bool :=
  t.all fun (key, v) => keys.contains key || v.fits

/-- A table with some keys that mean something; an array gives all of these, in their order, and
what more it holds is not looked at. -/
def asRecord (keys : List String) : Value → Option Table
  | .table t => if othersFit keys t then some t else none
  | .array items => if items.length < keys.length then none else some (keys.zip items)
  | _ => none

/-! ### Raw specs -/

structure RawField where
  name : String
  type : String
  doc : Option String
  indirect : Bool
  jsonKey : Option String
  deriving DecidableEq

structure RawStruct where
  space : Option String
  params : List String
  name : String
  fields : List RawField
  features : List Located
  includes : List Located
  sourceIncludes : List Located
  postIncludes : List Located
  forwards : List String
  doc : Option String
  deriving DecidableEq

structure RawEnumerator where
  name : String
  jsonKey : Option String
  deriving DecidableEq

structure RawEnum where
  space : Option String
  name : String
  values : List RawEnumerator
  features : List Located
  doc : Option String
  deriving DecidableEq

structure RawArm where
  type : String
  key : Option String
  jsonKey : Option String
  fmtKey : Option String
  deriving DecidableEq

structure RawVariant where
  space : Option String
  params : List String
  name : String
  arms : List RawArm
  features : List Located
  explicitConstructors : Bool
  includes : List Located
  sourceIncludes : List Located
  doc : Option String
  deriving DecidableEq

def RawField.keys : List String := ["name", "type", "docstring", "indirect", "json_key"]

def RawField.ofValue? (v : Value) : Option RawField := do
  let t ← asRecord RawField.keys v
  some {
    name := ← required t "name" asText
    type := ← required t "type" asText
    doc := ← optional t "docstring" asText
    indirect := ← withDefault t "indirect" asBoolean false
    jsonKey := ← optional t "json_key" asText }

def RawStruct.keys : List String :=
  ["namespace", "template_params", "name", "fields", "features", "includes", "src_includes",
    "post_includes", "fwd_decls", "docstring"]

def RawStruct.ofTable? (t : Table) : Option RawStruct := do
  guard (othersFit RawStruct.keys t)
  some {
    space := ← optional t "namespace" asText
    params := ← withDefault t "template_params" (asList asText) []
    name := ← required t "name" asText
    fields := ← required t "fields" (asList RawField.ofValue?)
    features := ← required t "features" (asList asLocated)
    includes := ← withDefault t "includes" (asList asLocated) []
    sourceIncludes := ← withDefault t "src_includes" (asList asLocated) []
    postIncludes := ← withDefault t "post_includes" (asList asLocated) []
    forwards := ← withDefault t "fwd_decls" (asList asText) []
    doc := ← optional t "docstring" asText }

def RawEnumerator.keys : List String := ["name", "json_key"]

def RawEnumerator.ofValue? (v : Value) : Option RawEnumerator := do
  let t ← asRecord RawEnumerator.keys v
  some {
    name := ← required t "name" asText
    jsonKey := ← optional t "json_key" asText }

def RawEnum.keys : List String := ["namespace", "name", "values", "features", "docstring"]

def RawEnum.ofTable? (t : Table) : Option RawEnum := do
  guard (othersFit RawEnum.keys t)
  some {
    space := ← optional t "namespace" asText
    name := ← required t "name" asText
    values := ← required t "values" (asList RawEnumerator.ofValue?)
    features := ← required t "features" (asList asLocated)
    doc := ← optional t "docstring" asText }

def RawArm.keys : List String := ["type", "key", "json_key", "fmt_key"]

def RawArm.ofValue? (v : Value) : Option RawArm := do
  let t ← asRecord RawArm.keys v
  some {
    type := ← required t "type" asText
    key := ← optional t "key" asText
    jsonKey := ← optional t "json_key" asText
    fmtKey := ← optional t "fmt_key" asText }

def RawVariant.keys : List String :=
  ["namespace", "template_params", "name", "values", "features", "explicit_constructors",
    "includes", "src_includes", "docstring"]

def RawVariant.ofTable? (t : Table) : Option RawVariant := do
  guard (othersFit RawVariant.keys t)
  some {
    space := ← optional t "namespace" asText
    params := ← withDefault t "template_params" (asList asText) []
    name := ← required t "name" asText
    arms := ← required t "values" (asList RawArm.ofValue?)
    features := ← required t "features" (asList asLocated)
    explicitConstructors := ← withDefault t "explicit_constructors" asBoolean true
    includes := ← withDefault t "includes" (asList asLocated) []
    sourceIncludes := ← withDefault t "src_includes" (asList asLocated) []
    doc := ← optional t "docstring" asText }

end TypeGen.Spec
