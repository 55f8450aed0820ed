import TypeGen.Proofs.Spec.Flaws

/-!
Which texts are accepted, and as what. A raw spec of any kind is sound or has flaws; the sound ones
are accepted with everything in the order in which it was listed, and of the others the first flaw is
reported.
-/

namespace TypeGen.Spec

open TypeGen.Toml

/-- A table of any kind, as it spells a spec. -/
inductive Raw where
  | struct (raw : RawStruct)
  | enum (raw : RawEnum)
  | variant (raw : RawVariant)
  deriving DecidableEq

namespace Raw

/-- The raw spec that a text is decoded to. -/
def decode? (kind : Kind) (text : String) : Option Raw :=
  (Toml.parse? text).bind fun t =>
    match kind with
    | .struct => (RawStruct.ofTable? t).map .struct
    | .enum => (RawEnum.ofTable? t).map .enum
    | .variant => (RawVariant.ofTable? t).map .variant

def check (file : String) : Raw → Except Error Spec
  | .struct raw => (raw.check file).map .struct
  | .enum raw => (raw.check file).map .enum
  | .variant raw => (raw.check file).map .variant

/-- The flaws of each check, in the order of the checks. -/
def checks (file : String) : Raw → List (List Error)
  | .struct raw => raw.checks file
  | .enum raw => raw.checks file
  | .variant raw => raw.checks file

def spec : Raw → Spec
  | .struct raw => .struct raw.spec
  | .enum raw => .enum raw.spec
  | .variant raw => .variant raw.spec

theorem check_eq (file : String) (raw : Raw) :
    raw.check file = firstOr raw.spec (raw.checks file).flatten := by
  cases raw with
  | struct raw => exact (congrArg _ (raw.check_eq file)).trans (map_firstOr _)
  | enum raw => exact (congrArg _ (raw.check_eq file)).trans (map_firstOr _)
  | variant raw => exact (congrArg _ (raw.check_eq file)).trans (map_firstOr _)

/-- One of the parsers: it decodes to its own kind of table, and checks that. -/
theorem map_decode_bind {α β : Type} {form : Form} {text file : String}
    {ofTable? : Table → Option α} {check : α → Except Error β} {toSpec : β → Spec} {toRaw : α → Raw}
    (h : ∀ raw, (toRaw raw).check file = (check raw).map toSpec) :
    (decode form ofTable? text file >>= check).map toSpec =
      match (Toml.parse? text).bind fun t => (ofTable? t).map toRaw with
      | some raw => raw.check file
      | none => .error (.syntaxError file form text) := by
  rw [decode, readTable]
  cases Toml.parse? text with
  | none => rfl
  | some t =>
    rw [Option.bind_some]
    cases hraw : ofTable? t with
    | none => simp only [bind, Except.bind, hraw, Except.map, Option.map_none]
    | some raw =>
      simp only [bind, Except.bind, hraw]
      exact (h raw).symm

/-- A text that cannot be decoded is not looked into any further. -/
theorem parse_eq (kind : Kind) (text file : String) :
    parse kind text file = match decode? kind text with
      | some raw => raw.check file
      | none => .error (.syntaxError file (.spec kind) text) := by
  cases kind with
  | struct => exact map_decode_bind fun _ => rfl
  | enum => exact map_decode_bind fun _ => rfl
  | variant => exact map_decode_bind fun _ => rfl

end Raw

/-! ### Sound specs -/

structure RawStruct.IsSound (raw : RawStruct) : Prop where
  features : ∀ t ∈ raw.features, IsToken Feature.all t.text
  includes : ∀ w ∈ raw.includes, Include.IsWellFormed w.text
  sourceIncludes : ∀ w ∈ raw.sourceIncludes, Include.IsWellFormed w.text
  postIncludes : ∀ w ∈ raw.postIncludes, Include.IsWellFormed w.text
  generators : raw.asksGenerators → ∀ f ∈ raw.fields, f.indirect = false

structure RawEnum.IsSound (raw : RawEnum) : Prop where
  nonempty : raw.values ≠ []
  features : ∀ t ∈ raw.features, IsToken Feature.forEnums t.text

structure RawVariant.IsSound (raw : RawVariant) : Prop where
  features : ∀ t ∈ raw.features, IsToken Feature.all t.text
  includes : ∀ w ∈ raw.includes, Include.IsWellFormed w.text
  sourceIncludes : ∀ w ∈ raw.sourceIncludes, Include.IsWellFormed w.text
  nonempty : raw.arms ≠ []
  keys : raw.keysAgree

/-- Raw specs that break no rule of their kind. -/
def Raw.IsSound : Raw → Prop
  | .struct raw => raw.IsSound
  | .enum raw => raw.IsSound
  | .variant raw => raw.IsSound

theorem RawStruct.isSound_iff {raw : RawStruct} (file : String) :
    raw.IsSound ↔ (raw.checks file).flatten = [] := by
  have hgenerators : raw.generatorFlaws file = [] ↔
      (raw.asksGenerators → ∀ f ∈ raw.fields, f.indirect = false) := by
    rw [generatorFlaws]
    split
    next h => simp [h, List.filter_eq_nil_iff]
    next h => simp [h]
  simp only [checks, List.flatten_cons, List.flatten_nil, List.append_eq_nil_iff, and_true,
    tokenFlaws_eq_nil, includeFlaws_eq_nil, hgenerators]
  constructor
  · rintro ⟨hf, hi, hs, hp, hg⟩
    exact ⟨hf, hi, hs, hp, hg⟩
  · rintro ⟨hf, hi, hs, hp, hg⟩
    exact ⟨hf, hi, hs, hp, hg⟩

theorem RawEnum.isSound_iff {raw : RawEnum} (file : String) :
    raw.IsSound ↔ (raw.checks file).flatten = [] := by
  have hempty : raw.emptyFlaws file = [] ↔ raw.values ≠ [] := by simp [emptyFlaws]
  simp only [checks, List.flatten_cons, List.flatten_nil, List.append_eq_nil_iff, and_true,
    tokenFlaws_eq_nil, hempty]
  constructor
  · rintro ⟨hne, hf⟩
    exact ⟨hne, hf⟩
  · rintro ⟨hne, hf⟩
    exact ⟨hne, hf⟩

theorem RawVariant.isSound_iff {raw : RawVariant} (file : String) :
    raw.IsSound ↔ (raw.checks file).flatten = [] := by
  have hempty : raw.emptyFlaws file = [] ↔ raw.arms ≠ [] := by simp [emptyFlaws]
  have hkeys : raw.keyFlaws file = [] ↔ raw.keysAgree := by simp [keyFlaws]
  simp only [checks, List.flatten_cons, List.flatten_nil, List.append_eq_nil_iff, and_true,
    tokenFlaws_eq_nil, includeFlaws_eq_nil, hempty, hkeys]
  constructor
  · rintro ⟨hf, hi, hs, hne, hk⟩
    exact ⟨hf, hi, hs, hne, hk⟩
  · rintro ⟨hf, hi, hs, hne, hk⟩
    exact ⟨hf, hi, hs, hne, hk⟩

/-- A raw spec is sound when no check finds a flaw. -/
theorem Raw.isSound_iff {raw : Raw} (file : String) :
    raw.IsSound ↔ (raw.checks file).flatten = [] := by
  cases raw with
  | struct raw => exact raw.isSound_iff file
  | enum raw => exact raw.isSound_iff file
  | variant raw => exact raw.isSound_iff file

/-! ### What is accepted -/

/-- A head with the features and the includes that a table lists: features as a set, includes one for
each text, in order. -/
structure Head.Lists (h : Head) (features includes sourceIncludes postIncludes : List Located) :
    Prop where
  features : ∀ f, h.features.contains f = true ↔ ∃ t ∈ features, t.text = f.token
  includes : includes.Forall₂ (fun w i => Include.IsSpelling w.text i) h.includes
  sourceIncludes : sourceIncludes.Forall₂ (fun w i => Include.IsSpelling w.text i) h.sourceIncludes
  postIncludes : postIncludes.Forall₂ (fun w i => Include.IsSpelling w.text i) h.postIncludes

/-- A struct with what its table says; the key of a field is its name unless it is given another. -/
structure RawStruct.Describes (raw : RawStruct) (s : StructSpec) : Prop where
  name : s.name = raw.name
  space : s.space = raw.space
  params : s.params = raw.params
  forwards : s.forwards = raw.forwards
  doc : s.doc = raw.doc
  lists : s.Lists raw.features raw.includes raw.sourceIncludes raw.postIncludes
  fields : s.fields = raw.fields.map fun f =>
    ⟨f.name, f.type, f.doc, f.indirect, f.jsonKey.getD f.name⟩

/-- An enum with what its table says; the key of a value is its name unless it is given another. -/
structure RawEnum.Describes (raw : RawEnum) (s : EnumSpec) : Prop where
  name : s.name = raw.name
  space : s.space = raw.space
  params : s.params = []
  forwards : s.forwards = []
  doc : s.doc = raw.doc
  lists : s.Lists raw.features [] [] []
  values : s.values = raw.values.map fun v => ⟨v.name, v.jsonKey.getD v.name⟩

/-- A variant with what its table says; an arm without a key goes by its type, and both other keys
are that one unless they are given. -/
structure RawVariant.Describes (raw : RawVariant) (s : VariantSpec) : Prop where
  name : s.name = raw.name
  space : s.space = raw.space
  params : s.params = raw.params
  forwards : s.forwards = []
  doc : s.doc = raw.doc
  lists : s.Lists raw.features raw.includes raw.sourceIncludes []
  arms : s.arms = raw.arms.map fun a => ⟨a.type, a.key, a.jsonKey.getD (a.key.getD a.type),
    a.fmtKey.getD (a.key.getD a.type)⟩
  explicitConstructors : s.explicitConstructors = raw.explicitConstructors

/-- Specs that say what a table does. -/
inductive Raw.Describes : Raw → Spec → Prop
  | struct {raw : RawStruct} {s : StructSpec} (h : raw.Describes s) : Describes (.struct raw) (.struct s)
  | enum {raw : RawEnum} {s : EnumSpec} (h : raw.Describes s) : Describes (.enum raw) (.enum s)
  | variant {raw : RawVariant} {s : VariantSpec} (h : raw.Describes s) :
      Describes (.variant raw) (.variant s)

theorem Raw.IsSound.describes {raw : Raw} (h : raw.IsSound) : raw.Describes raw.spec := by
  cases raw with
  | struct raw =>
    exact .struct ⟨rfl, rfl, rfl, rfl, rfl, ⟨fun _ => contains_featuresOf,
      forall₂_includesOf h.includes, forall₂_includesOf h.sourceIncludes,
      forall₂_includesOf h.postIncludes⟩, rfl⟩
  | enum raw =>
    exact .enum ⟨rfl, rfl, rfl, rfl, rfl, ⟨fun _ => contains_featuresOf, .nil, .nil, .nil⟩, rfl⟩
  | variant raw =>
    exact .variant ⟨rfl, rfl, rfl, rfl, rfl, ⟨fun _ => contains_featuresOf,
      forall₂_includesOf h.includes, forall₂_includesOf h.sourceIncludes, .nil⟩, rfl, rfl⟩

/-- A text is decoded and then checked. Whatever it is decoded to, it is accepted exactly when it
breaks no rule, as a spec that says what the table does; and else the error is the first flaw of the
first check that has any. -/
theorem accepted_or_first_flaw (file : String) :
    (∀ kind text, parse kind text file = match Raw.decode? kind text with
      | some raw => raw.check file
      | none => .error (.syntaxError file (.spec kind) text)) ∧
    ∀ raw : Raw,
      ((∃ s, raw.check file = .ok s) ↔ raw.IsSound) ∧
      (∀ s, raw.check file = .ok s → raw.Describes s) ∧
      ∀ e, raw.check file = .error e ↔ (raw.checks file).findSome? List.head? = some e := by
  refine ⟨fun kind text => Raw.parse_eq kind text file, fun raw => ?_⟩
  rw [raw.check_eq, raw.isSound_iff file]
  refine ⟨?_, fun s hs => ?_, fun e => ?_⟩
  · simp [firstOr_eq_ok]
  · obtain ⟨hsound, rfl⟩ := firstOr_eq_ok.1 hs
    exact ((raw.isSound_iff file).2 hsound).describes
  · rw [firstOr_eq_error, List.head?_flatten]

/-- One arm without a key is enough for a variant. In a struct an unknown token is reported before
the token, the include and the field that are wrong after it. -/
theorem accepted_or_first_flaw_of_shapes :
    let shape : Raw := .variant
      ⟨none, [], "Shape", [⟨"Circle", none, some "circle", none⟩], [], true, [], [], none⟩
    let flawed : Raw := .struct
      ⟨none, [], "Point", [⟨"x", "int", none, true, none⟩],
        [⟨"rapidcheck", ⟨11, 12⟩⟩, ⟨"debug", ⟨25, 7⟩⟩, ⟨"show", ⟨34, 6⟩⟩], [⟨"<a", ⟨60, 4⟩⟩], [], [],
        [], none⟩
    (∃ s, shape.check "shape.variant.toml" = .ok s ∧ shape.Describes s) ∧
    flawed.check "point.struct.toml" = .error
      (.unknownFeature "point.struct.toml" "debug" (Feature.all.map Feature.token) ⟨25, 7⟩) := by
  intro shape flawed
  obtain ⟨haccepted, hdescribes, -⟩ := (accepted_or_first_flaw "shape.variant.toml").2 shape
  obtain ⟨-, -, hflaw⟩ := (accepted_or_first_flaw "point.struct.toml").2 flawed
  have hsound : shape.IsSound :=
    { features := by simp
      includes := by simp
      sourceIncludes := by simp
      nonempty := by simp
      keys := .inr (by simp) }
  obtain ⟨s, hs⟩ := haccepted.2 hsound
  exact ⟨⟨s, hs, hdescribes s hs⟩, (hflaw _).2 rfl⟩

end TypeGen.Spec
