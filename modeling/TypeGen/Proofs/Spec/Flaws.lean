import TypeGen.Proofs.Spec.Features
import TypeGen.Proofs.Spec.Includes
import TypeGen.Spec.Check

/-!
Flaws of specs. Every check of a raw spec has its flaws, and the checks have their order. A spec with
a flaw is refused for the first one of the first check that has any; one without is what its table
says, with defaults for the keys that are missing.
-/

namespace TypeGen.Spec

open TypeGen.Toml

/-! ### The first of some flaws -/

/-- A value, unless there are flaws: the first of them is the error then. -/
def firstOr {α : Type} (a : α) : List Error → Except Error α
  | [] => .ok a
  | e :: _ => .error e

section

variable {α β : Type} {a b : α} {fs gs : List Error} {e : Error}

theorem firstOr_eq_ok : firstOr a fs = .ok b ↔ fs = [] ∧ a = b := by
  cases fs <;> simp [firstOr]

theorem firstOr_eq_error : firstOr a fs = .error e ↔ fs.head? = some e := by
  cases fs <;> simp [firstOr]

theorem map_firstOr (f : α → β) : (firstOr a fs).map f = firstOr (f a) fs := by
  cases fs <;> rfl

theorem mapError_firstOr (f : Error → Error) : (firstOr a fs).mapError f = firstOr a (fs.map f) := by
  cases fs <;> rfl

/-- Checks that follow one another: the flaws of the later one count only where there are no others. -/
theorem firstOr_bind {k : α → Except Error β} {c : β} (h : k a = firstOr c gs) :
    (firstOr a fs >>= k) = firstOr c (fs ++ gs) := by
  cases fs with
  | nil => exact h
  | cons => rfl

/-- Reading a list ends at the first item that is not as it should be. -/
theorem mapM_eq_firstOr {read : α → Except Error β} (good : α → Prop) [DecidablePred good]
    (value? : α → Option β) (flaw : α → Error)
    (hgood : ∀ x, good x → ∃ y, value? x = some y ∧ read x = .ok y)
    (hbad : ∀ x, ¬ good x → read x = .error (flaw x)) (xs : List α) :
    xs.mapM read = firstOr (xs.filterMap value?) ((xs.filter (¬ good ·)).map flaw) := by
  induction xs with
  | nil => rfl
  | cons x xs ih =>
    rw [List.mapM_cons]
    by_cases hx : good x
    · obtain ⟨y, hvalue, hread⟩ := hgood x hx
      rw [hread, ih, List.filterMap_cons_some hvalue, List.filter_cons_of_neg (by simpa using hx)]
      exact map_firstOr (y :: ·)
    · rw [hbad x hx, List.filter_cons_of_pos (by simpa using hx)]
      rfl

end

/-! ### Lists of tokens and of includes -/

/-- A token that names one of the features that are allowed. -/
def IsToken (allowed : List Feature) (token : String) : Prop := ∃ f ∈ allowed, f.token = token

instance (allowed : List Feature) (token : String) : Decidable (IsToken allowed token) :=
  inferInstanceAs (Decidable (∃ f ∈ allowed, f.token = token))

def tokenFlaws (allowed : List Feature) (file : String) (tokens : List Located) : List Error :=
  (tokens.filter (¬ IsToken allowed ·.text)).map fun t =>
    .unknownFeature file t.text (allowed.map Feature.token) t.span

def includeFlaws (file : String) (written : List Located) : List Error :=
  (written.filter (¬ Include.IsWellFormed ·.text)).map fun w => .malformedInclude file w.text w.span

/-- The features that tokens name. -/
def featuresOf (tokens : List Located) : FeatureSet :=
  .ofList (tokens.filterMap (Feature.ofToken? ·.text))

/-- The includes that texts stand for. -/
def includesOf (written : List Located) : List Include := written.filterMap (Include.parse? ·.text)

theorem checkFeatures_eq (allowed : List Feature) (file : String) (tokens : List Located) :
    checkFeatures allowed file tokens = firstOr (featuresOf tokens) (tokenFlaws allowed file tokens) := by
  rw [checkFeatures, mapM_eq_firstOr (IsToken allowed ·.text) (Feature.ofToken? ·.text)
    fun t => .unknownFeature file t.text (allowed.map Feature.token) t.span]
  · exact map_firstOr FeatureSet.ofList
  · rintro t ⟨f, hf, ht⟩
    have htoken := Feature.ofToken?_eq_some.2 ht
    exact ⟨f, htoken, by simp [checkFeature, htoken, hf]⟩
  · intro t ht
    rw [checkFeature]
    split
    next f hf =>
      rw [if_neg]
      · rfl
      · intro hmem
        exact ht ⟨f, by simpa using hmem, Feature.ofToken?_eq_some.1 hf⟩
    next => rfl

theorem checkIncludes_eq (file : String) (written : List Located) :
    checkIncludes file written = firstOr (includesOf written) (includeFlaws file written) := by
  rw [checkIncludes, mapM_eq_firstOr (Include.IsWellFormed ·.text) (Include.parse? ·.text)
    fun w => .malformedInclude file w.text w.span]
  · rfl
  · intro w hw
    obtain ⟨i, hi⟩ := Option.isSome_iff_exists.1 (Include.isWellFormed_iff.1 hw)
    exact ⟨i, hi, by simp [checkInclude, hi]⟩
  · intro w hw
    rw [Include.isWellFormed_iff, Option.not_isSome_iff_eq_none] at hw
    simp [checkInclude, hw]

theorem tokenFlaws_eq_nil {allowed : List Feature} {file : String} {tokens : List Located} :
    tokenFlaws allowed file tokens = [] ↔ ∀ t ∈ tokens, IsToken allowed t.text := by
  simp [tokenFlaws, List.filter_eq_nil_iff]

theorem includeFlaws_eq_nil {file : String} {written : List Located} :
    includeFlaws file written = [] ↔ ∀ w ∈ written, Include.IsWellFormed w.text := by
  simp [includeFlaws, List.filter_eq_nil_iff]

/-- A feature is in the set exactly when its token is in the list. -/
theorem contains_featuresOf {tokens : List Located} {f : Feature} :
    (featuresOf tokens).contains f = true ↔ ∃ t ∈ tokens, t.text = f.token := by
  rw [FeatureSet.contains, List.contains_iff_mem, featuresOf, FeatureSet.mem_ofList, List.mem_filterMap]
  exact exists_congr fun t => and_congr_right fun _ => Feature.ofToken?_eq_some.trans eq_comm

/-- Includes are read one by one, in order. -/
theorem forall₂_includesOf {written : List Located}
    (h : ∀ w ∈ written, Include.IsWellFormed w.text) :
    written.Forall₂ (fun w i => Include.IsSpelling w.text i) (includesOf written) := by
  induction written with
  | nil => exact .nil
  | cons w written ih =>
    obtain ⟨i, hi⟩ := h w (List.mem_cons_self ..)
    have hcons : includesOf (w :: written) = i :: includesOf written :=
      List.filterMap_cons_some hi.parse?
    rw [hcons]
    exact .cons hi (ih fun v hv => h v (List.mem_cons_of_mem _ hv))

/-! ### Structs -/

namespace RawStruct

/-- What the table of a struct says. -/
def spec (raw : RawStruct) : StructSpec where
  name := raw.name
  space := raw.space
  params := raw.params
  features := featuresOf raw.features
  includes := includesOf raw.includes
  sourceIncludes := includesOf raw.sourceIncludes
  postIncludes := includesOf raw.postIncludes
  forwards := raw.forwards
  doc := raw.doc
  fields := raw.fields.map RawField.field

/-- The struct asks for generators. -/
def asksGenerators (raw : RawStruct) : Prop :=
  ∃ t ∈ raw.features, t.text = Feature.rapidcheck.token

instance (raw : RawStruct) : Decidable raw.asksGenerators :=
  inferInstanceAs (Decidable (∃ t ∈ raw.features, t.text = Feature.rapidcheck.token))

/-- The fields of which there can be no generator. -/
def generatorFlaws (file : String) (raw : RawStruct) : List Error :=
  if raw.asksGenerators then
    (raw.fields.filter (·.indirect)).map fun f =>
      .invalid file (Violation.indirectGenerator raw.name f.name).message none
  else []

/-- The flaws of each check. -/
def checks (file : String) (raw : RawStruct) : List (List Error) :=
  [tokenFlaws Feature.all file raw.features, includeFlaws file raw.includes,
    includeFlaws file raw.sourceIncludes, includeFlaws file raw.postIncludes,
    raw.generatorFlaws file]

theorem validate_spec (file : String) (raw : RawStruct) :
    raw.spec.validate file = firstOr () (raw.generatorFlaws file) := by
  have hasks : raw.spec.features.contains .rapidcheck = true ↔ raw.asksGenerators := contains_featuresOf
  have hfind : raw.spec.fields.find? (·.indirect) =
      (raw.fields.find? (·.indirect)).map RawField.field := List.find?_map ..
  rw [StructSpec.validate, generatorFlaws, hfind, ← List.head?_filter]
  by_cases h : raw.asksGenerators
  · rw [if_pos (hasks.2 h), if_pos h]
    cases raw.fields.filter (·.indirect) <;> rfl
  · rw [if_neg (mt hasks.1 h), if_neg h]
    rfl

theorem check_eq (file : String) (raw : RawStruct) :
    raw.check file = firstOr raw.spec (raw.checks file).flatten := by
  rw [check, checkFeatures_eq, checkIncludes_eq, checkIncludes_eq, checkIncludes_eq]
  simp only [checks, List.flatten_cons, List.flatten_nil]
  refine firstOr_bind (firstOr_bind (firstOr_bind (firstOr_bind ?_)))
  change (raw.spec.validate file >>= fun _ => .ok raw.spec) = _
  rw [validate_spec]
  exact firstOr_bind rfl

end RawStruct

/-! ### Enums -/

namespace RawEnum

/-- What the table of an enum says. -/
def spec (raw : RawEnum) : EnumSpec where
  name := raw.name
  space := raw.space
  params := []
  features := featuresOf raw.features
  includes := []
  sourceIncludes := []
  postIncludes := []
  forwards := []
  doc := raw.doc
  values := raw.values.map RawEnumerator.enumerator

def emptyFlaws (file : String) (raw : RawEnum) : List Error :=
  if raw.values = [] then [.invalid file (Violation.emptyEnum raw.name).message none] else []

/-- The flaws of each check. -/
def checks (file : String) (raw : RawEnum) : List (List Error) :=
  [raw.emptyFlaws file, tokenFlaws Feature.forEnums file raw.features]

theorem check_eq (file : String) (raw : RawEnum) :
    raw.check file = firstOr raw.spec (raw.checks file).flatten := by
  simp only [check, checkFeatures_eq, checks, emptyFlaws, List.flatten_cons, List.flatten_nil,
    List.isEmpty_iff]
  by_cases hempty : raw.values = []
  · rw [if_pos hempty, if_pos hempty]
    rfl
  · rw [if_neg hempty, if_neg hempty]
    exact firstOr_bind (c := raw.spec) rfl

end RawEnum

/-! ### Variants -/

namespace RawVariant

/-- What the table of a variant says. -/
def spec (raw : RawVariant) : VariantSpec where
  name := raw.name
  space := raw.space
  params := raw.params
  features := featuresOf raw.features
  includes := includesOf raw.includes
  sourceIncludes := includesOf raw.sourceIncludes
  postIncludes := []
  forwards := []
  doc := raw.doc
  arms := raw.arms.map RawArm.arm
  explicitConstructors := raw.explicitConstructors

/-- Keys are given to all arms, or to none. -/
def keysAgree (raw : RawVariant) : Prop :=
  (∀ a ∈ raw.arms, a.key.isSome = true) ∨ ∀ a ∈ raw.arms, a.key.isSome = false

instance (raw : RawVariant) : Decidable raw.keysAgree := inferInstanceAs (Decidable (_ ∨ _))

def emptyFlaws (file : String) (raw : RawVariant) : List Error :=
  if raw.arms = [] then [.invalid file (Violation.emptyVariant raw.name).message none] else []

/-- One flaw for all arms without a key. -/
def keyFlaws (file : String) (raw : RawVariant) : List Error :=
  if raw.keysAgree then []
  else [.invalid file (Violation.partlyKeyed raw.name
    ((raw.arms.filter (·.key.isNone)).map (·.type))).message none]

/-- The flaws of each check. -/
def checks (file : String) (raw : RawVariant) : List (List Error) :=
  [tokenFlaws Feature.all file raw.features, includeFlaws file raw.includes,
    includeFlaws file raw.sourceIncludes, raw.emptyFlaws file, raw.keyFlaws file]

theorem unkeyed_spec (raw : RawVariant) : raw.spec.arms.filter (·.methodKey.isNone) =
    (raw.arms.filter (·.key.isNone)).map RawArm.arm := List.filter_map

/-- Keys disagree when there is an arm with a key and one without. -/
theorem keysAgree_iff (raw : RawVariant) : raw.keysAgree ↔ ¬ (raw.spec.arms.any (·.methodKey.isSome) &&
    !(raw.spec.arms.filter (·.methodKey.isNone)).isEmpty) = true := by
  have hsome : raw.spec.arms.any (·.methodKey.isSome) = raw.arms.any (·.key.isSome) := List.any_map
  rw [unkeyed_spec, hsome]
  simp only [keysAgree, Bool.and_eq_true, not_and, Bool.not_eq_true, Bool.not_eq_false',
    List.any_eq_true, List.isEmpty_iff, List.map_eq_nil_iff, List.filter_eq_nil_iff]
  constructor
  · rintro (hall | hnone) ⟨a, ha, hkey⟩ b hb
    · simp [hall b hb]
    · rw [hnone a ha] at hkey
      cases hkey
  · intro h
    by_cases hany : ∃ a ∈ raw.arms, a.key.isSome = true
    · refine .inl fun b hb => ?_
      simpa [← Option.isSome_iff_ne_none] using h hany b hb
    · refine .inr fun b hb => ?_
      simpa using fun hb' => hany ⟨b, hb, hb'⟩

theorem validate_spec (file : String) (raw : RawVariant) :
    raw.spec.validate file = firstOr () (raw.emptyFlaws file ++ raw.keyFlaws file) := by
  have hempty : raw.spec.arms.isEmpty = true ↔ raw.arms = [] := by
    rw [List.isEmpty_iff]
    exact List.map_eq_nil_iff
  simp only [VariantSpec.validate, emptyFlaws, keyFlaws, keysAgree_iff]
  by_cases h : raw.arms = []
  · rw [if_pos (hempty.2 h), if_pos h]
    rfl
  · rw [if_neg (mt hempty.1 h), if_neg h, ite_not]
    split
    · rw [unkeyed_spec, List.map_map]
      rfl
    · rfl

theorem check_eq (file : String) (raw : RawVariant) :
    raw.check file = firstOr raw.spec (raw.checks file).flatten := by
  rw [check, checkFeatures_eq, checkIncludes_eq, checkIncludes_eq]
  simp only [checks, List.flatten_cons, List.flatten_nil]
  refine firstOr_bind (firstOr_bind (firstOr_bind ?_))
  change (raw.spec.validate file >>= fun _ => .ok raw.spec) = _
  rw [validate_spec, ← List.append_assoc]
  exact firstOr_bind rfl

end RawVariant

end TypeGen.Spec
