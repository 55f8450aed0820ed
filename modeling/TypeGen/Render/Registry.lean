import TypeGen.Code.Step
import TypeGen.Spec.Basic

/-!
What each feature contributes to the generated files of one kind of spec. A feature is emitted when
a spec asks for it and the registry knows it; features follow each other in emission order, and each
contribution stands behind an empty line.
-/

namespace TypeGen.Render

open TypeGen.Code TypeGen.Spec

/-- Kinds of specs, seen through the head they share. -/
class HasHead (S : Type) where
  head : S → Head

instance : HasHead StructSpec := ⟨StructSpec.toHead⟩
instance : HasHead EnumSpec := ⟨EnumSpec.toHead⟩
instance : HasHead VariantSpec := ⟨VariantSpec.toHead⟩

/-- The places that a feature can write to. -/
inductive Slot where
  /-- Inside the body of the type. -/
  | memberDecls
  /-- In the header, after the type. -/
  | decls
  /-- In the namespace of the type, with the definitions of its members. -/
  | memberDefs
  /-- After the definitions of the members. -/
  | defs
  deriving DecidableEq, Repr

/-- The contribution of one feature. -/
structure Emitter (S : Type) where
  headerIncludes : List Include
  /-- What the definitions alone need. -/
  sourceIncludes : List Include
  emit : Slot → Option (S → List Step)

def Emitter.nothing {S : Type} : Emitter S := ⟨[], [], fun _ => none⟩

/-- What a registry knows of each feature. -/
structure Registry (S : Type) where
  get? : Feature → Option (Emitter S)

namespace Registry

variable {S : Type}

def empty : Registry S := ⟨fun _ => none⟩

/-- Registers a feature; what was registered for it before is gone. -/
def register (r : Registry S) (f : Feature) (e : Emitter S) : Registry S :=
  ⟨fun g => if g = f then some e else r.get? g⟩

/-- The features that are known, in emission order. -/
def features (r : Registry S) : List Feature := Feature.all.filter fun f => (r.get? f).isSome

variable [HasHead S]

/-- The contributions that a spec asks for, in emission order. -/
def enabled (r : Registry S) (s : S) : List (Emitter S) :=
  (HasHead.head s).features.toList.filterMap r.get?

def headerIncludes (r : Registry S) (s : S) : List Include :=
  (r.enabled s).flatMap (·.headerIncludes)

def sourceIncludes (r : Registry S) (s : S) : List Include :=
  (r.enabled s).flatMap (·.sourceIncludes)

/-- Whether a feature that is asked for defines members. -/
def hasMemberDefs (r : Registry S) (s : S) : Bool :=
  (r.enabled s).any fun e => (e.emit .memberDefs).isSome

/-- All contributions to a slot. -/
def emitAll (r : Registry S) (slot : Slot) (s : S) : List Step :=
  ((r.enabled s).filterMap (·.emit slot)).flatMap fun emit => .blank :: emit s

end Registry

end TypeGen.Render
