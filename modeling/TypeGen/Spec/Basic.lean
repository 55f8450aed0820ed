import TypeGen.Spec.Feature
import TypeGen.Spec.Include

/-!
Specs: descriptions of a struct, an enum or a variant to be generated. What the three kinds share
is their head; types, names and declarations in it are fragments of code that are never looked
into.
-/

namespace TypeGen.Spec

/-- What every spec declares. -/
structure Head where
  name : String
  /-- The namespace that the type goes into. -/
  space : Option String
  /-- Template parameters; with any the type is generic. -/
  params : List String
  features : FeatureSet
  /-- For the header, ahead of the type. -/
  includes : List Include
  /-- For the definitions alone. -/
  sourceIncludes : List Include
  /-- For the header, after the type. -/
  postIncludes : List Include
  /-- Declarations in the namespace, ahead of the type. -/
  forwards : List String
  doc : Option String
  deriving DecidableEq

def Head.isGeneric (h : Head) : Bool := !h.params.isEmpty

/-- A member of a struct. -/
structure StructField where
  name : String
  type : String
  doc : Option String
  /-- Kept behind a pointer, so that a type may contain itself. -/
  indirect : Bool
  jsonKey : String
  deriving DecidableEq

structure StructSpec extends Head where
  fields : List StructField
  deriving DecidableEq

def StructSpec.hasIndirect (s : StructSpec) : Bool := s.fields.any (·.indirect)

structure Enumerator where
  name : String
  jsonKey : String
  deriving DecidableEq

structure EnumSpec extends Head where
  values : List Enumerator
  deriving DecidableEq

/-- An alternative of a variant. -/
structure Arm where
  type : String
  methodKey : Option String
  jsonKey : String
  fmtKey : String
  deriving DecidableEq

/-- The method key where there is one, else the type. -/
def Arm.key (a : Arm) : String := a.methodKey.getD a.type

structure VariantSpec extends Head where
  arms : List Arm
  explicitConstructors : Bool
  deriving DecidableEq

/-- Every arm has a method key, so accessors named by keys exist. -/
def VariantSpec.isKeyed (s : VariantSpec) : Bool := s.arms.all (·.methodKey.isSome)

inductive Kind where
  | struct | enum | variant
  deriving DecidableEq, Repr

namespace Kind

def all : List Kind := [.struct, .enum, .variant]

/-- How the names of spec files of a kind end. -/
def suffix : Kind → String
  | .struct => ".struct.toml"
  | .enum => ".enum.toml"
  | .variant => ".variant.toml"

/-- A file name without the suffix of its kind, if it has that suffix. -/
def stem? (k : Kind) (name : String) : Option String := Text.cutEnding? k.suffix name

/-- The kind of a spec file with a given name; a suffix alone names none. -/
def ofFileName? (name : String) : Option Kind :=
  all.find? fun k => (k.stem? name).any (· ≠ "")

end Kind

end TypeGen.Spec

namespace TypeGen

open TypeGen.Spec

/-- A spec of any kind. -/
inductive Spec where
  | struct (s : StructSpec)
  | enum (s : EnumSpec)
  | variant (s : VariantSpec)

def Spec.head : Spec → Head
  | .struct s => s.toHead
  | .enum s => s.toHead
  | .variant s => s.toHead

end TypeGen
