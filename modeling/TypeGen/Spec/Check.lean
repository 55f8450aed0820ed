import TypeGen.Spec.Error
import TypeGen.Spec.Raw
import TypeGen.Toml.Reader

/-!
From texts to specs. The first rule that is broken, in the order of the checks, is the error; of the
tokens of one list it is the first bad one. What passes keeps its fields, values and includes in
order.
-/

namespace TypeGen.Spec

open TypeGen.Toml

/-- The table of a text that is read as something. -/
def readTable (form : Form) (text file : String) : Except Error Table :=
  match Toml.parse? text with
  | some t => .ok t
  | none => .error (.syntaxError file form text)

/-- What a table says, if its keys have the right types. -/
def decode {α : Type} (form : Form) (ofTable? : Table → Option α) (text file : String) :
    Except Error α := do
  match ofTable? (← readTable form text file) with
  | some raw => .ok raw
  | none => .error (.syntaxError file form text)

/-- The feature that a token names, among those that are allowed. -/
def checkFeature (allowed : List Feature) (file : String) (token : Located) :
    Except Error Feature :=
  match Feature.ofToken? token.text with
  | some f => if allowed.contains f then .ok f else refuse
  | none => refuse
where
  refuse : Except Error Feature :=
    .error (.unknownFeature file token.text (allowed.map Feature.token) token.span)

def checkFeatures (allowed : List Feature) (file : String) (tokens : List Located) :
    Except Error FeatureSet :=
  (tokens.mapM (checkFeature allowed file)).map FeatureSet.ofList

def checkInclude (file : String) (written : Located) : Except Error Include :=
  match Include.parse? written.text with
  | some i => .ok i
  | none => .error (.malformedInclude file written.text written.span)

def checkIncludes (file : String) (written : List Located) : Except Error (List Include) :=
  written.mapM (checkInclude file)

/-- Fails with a violation that points at no place. -/
def refuse (file : String) (v : Violation) : Except Error Unit :=
  .error (.invalid file v.message none)

/-! ### Structs -/

def RawField.field (f : RawField) : StructField where
  name := f.name
  type := f.type
  doc := f.doc
  indirect := f.indirect
  jsonKey := f.jsonKey.getD f.name

/-- Values of a type with pointers in it cannot be generated. -/
def StructSpec.validate (file : String) (s : StructSpec) : Except Error Unit :=
  if s.features.contains .rapidcheck then
    match s.fields.find? (·.indirect) with
    | some f => refuse file (.indirectGenerator s.name f.name)
    | none => .ok ()
  else .ok ()

def RawStruct.check (file : String) (raw : RawStruct) : Except Error StructSpec := do
  let s : StructSpec := {
    name := raw.name
    space := raw.space
    params := raw.params
    features := ← checkFeatures Feature.all file raw.features
    includes := ← checkIncludes file raw.includes
    sourceIncludes := ← checkIncludes file raw.sourceIncludes
    postIncludes := ← checkIncludes file raw.postIncludes
    forwards := raw.forwards
    doc := raw.doc
    fields := raw.fields.map RawField.field }
  s.validate file
  return s

/-- Reads the text of a struct spec. -/
def parseStruct (text file : String) : Except Error StructSpec := do
  (← decode (.spec .struct) RawStruct.ofTable? text file).check file

/-! ### Enums -/

def RawEnumerator.enumerator (v : RawEnumerator) : Enumerator :=
  ⟨v.name, v.jsonKey.getD v.name⟩

def RawEnum.check (file : String) (raw : RawEnum) : Except Error EnumSpec := do
  if raw.values.isEmpty then refuse file (.emptyEnum raw.name)
  return {
    name := raw.name
    space := raw.space
    params := []
    features := ← checkFeatures Feature.forEnums file raw.features
    includes := []
    sourceIncludes := []
    postIncludes := []
    forwards := []
    doc := raw.doc
    values := raw.values.map RawEnumerator.enumerator }

/-- Reads the text of an enum spec. -/
def parseEnum (text file : String) : Except Error EnumSpec := do
  (← decode (.spec .enum) RawEnum.ofTable? text file).check file

/-! ### Variants -/

def RawArm.arm (a : RawArm) : Arm where
  type := a.type
  methodKey := a.key
  jsonKey := a.jsonKey.getD (a.key.getD a.type)
  fmtKey := a.fmtKey.getD (a.key.getD a.type)

/-- There is an arm, and keys are given to all arms or to none. -/
def VariantSpec.validate (file : String) (s : VariantSpec) : Except Error Unit :=
  let unkeyed := s.arms.filter (·.methodKey.isNone)
  if s.arms.isEmpty then refuse file (.emptyVariant s.name)
  else if s.arms.any (·.methodKey.isSome) && !unkeyed.isEmpty then
    refuse file (.partlyKeyed s.name (unkeyed.map (·.type)))
  else .ok ()

def RawVariant.check (file : String) (raw : RawVariant) : Except Error VariantSpec := do
  let s : VariantSpec := {
    name := raw.name
    space := raw.space
    params := raw.params
    features := ← checkFeatures Feature.all file raw.features
    includes := ← checkIncludes file raw.includes
    sourceIncludes := ← checkIncludes file raw.sourceIncludes
    postIncludes := []
    forwards := []
    doc := raw.doc
    arms := raw.arms.map RawArm.arm
    explicitConstructors := raw.explicitConstructors }
  s.validate file
  return s

/-- Reads the text of a variant spec. -/
def parseVariant (text file : String) : Except Error VariantSpec := do
  (← decode (.spec .variant) RawVariant.ofTable? text file).check file

/-! ### Any kind -/

/-- Reads the text of a spec of a given kind. -/
def parse (kind : Kind) (text file : String) : Except Error Spec :=
  match kind with
  | .struct => (parseStruct text file).map .struct
  | .enum => (parseEnum text file).map .enum
  | .variant => (parseVariant text file).map .variant

/-- The name under which a text without a file is complained about. -/
def anonymousFile (kind : Kind) : String := "<string>" ++ kind.suffix

end TypeGen.Spec
