import TypeGen.Proofs.Spec.Accepting
import TypeGen.Render.Code

/-!
Listing features in another way. Nothing that is read from a text shows in what order its features are
listed, or how often: the spec is the same, and so is all that is written for it. If the spec is
refused, the error is the same, but for the place that it points at.
-/

namespace TypeGen.Spec

open TypeGen.Toml TypeGen.Render

/-! ### Places -/

/-- The same text, standing nowhere. -/
def unplaced (t : Located) : Located := ⟨t.text, ⟨0, 0⟩⟩

/-- The same error, pointing nowhere. -/
def Error.unplaced : Error → Error
  | .unknownFeature file token valid _ => .unknownFeature file token valid ⟨0, 0⟩
  | .malformedInclude file text _ => .malformedInclude file text ⟨0, 0⟩
  | .invalid file message span => .invalid file message (span.map fun _ => ⟨0, 0⟩)
  | e => e

theorem includesOf_unplaced (written : List Located) :
    includesOf (written.map unplaced) = includesOf written := List.filterMap_map

theorem includeFlaws_unplaced (file : String) (written : List Located) :
    (includeFlaws file written).map Error.unplaced = includeFlaws file (written.map unplaced) := by
  rw [includeFlaws, includeFlaws, List.filter_map, List.map_map, List.map_map]
  rfl

/-! ### Lists of features -/

/-- Lists of the same tokens, all of them allowed, in whatever order and however often. -/
structure Relists (allowed : List Feature) (tokens tokens' : List Located) : Prop where
  allowed : ∀ t ∈ tokens, IsToken allowed t.text
  same : ∀ token, (∃ t ∈ tokens', t.text = token) ↔ ∃ t ∈ tokens, t.text = token

namespace Relists

variable {allowed : List Feature} {tokens tokens' : List Located} (h : Relists allowed tokens tokens')

include h

theorem featuresOf_eq : featuresOf tokens' = featuresOf tokens := by
  rw [FeatureSet.mk.injEq, FeatureSet.toList_eq_filter, FeatureSet.toList_eq_filter]
  refine List.filter_congr fun f _ => ?_
  rw [Bool.eq_iff_iff, contains_featuresOf, contains_featuresOf, h.same]

theorem tokenFlaws_eq (file : String) :
    tokenFlaws allowed file tokens' = tokenFlaws allowed file tokens := by
  rw [tokenFlaws_eq_nil.2 h.allowed, tokenFlaws_eq_nil]
  intro t ht
  obtain ⟨t', ht', hsame⟩ := (h.same t.text).1 ⟨t, ht, rfl⟩
  exact hsame ▸ h.allowed t' ht'

end Relists

/-! ### Structs -/

namespace RawStruct

/-- Everything but the features, wherever it stands. -/
def rest (raw : RawStruct) : RawStruct := { raw with
  features := []
  includes := raw.includes.map unplaced
  sourceIncludes := raw.sourceIncludes.map unplaced
  postIncludes := raw.postIncludes.map unplaced }

theorem spec_eq (raw : RawStruct) :
    raw.spec = { raw.rest.spec with features := featuresOf raw.features } := by
  simp only [spec, rest, includesOf_unplaced]

theorem checks_unplaced (file : String) (raw : RawStruct) :
    (raw.checks file).map (List.map Error.unplaced) =
      [(tokenFlaws Feature.all file raw.features).map Error.unplaced,
        includeFlaws file raw.rest.includes, includeFlaws file raw.rest.sourceIncludes,
        includeFlaws file raw.rest.postIncludes, raw.generatorFlaws file] := by
  have hgenerators : (raw.generatorFlaws file).map Error.unplaced = raw.generatorFlaws file := by
    rw [generatorFlaws, apply_ite (List.map Error.unplaced), List.map_map]
    rfl
  simp only [checks, List.map_cons, List.map_nil, includeFlaws_unplaced, hgenerators, rest]

section

variable {raw raw' : RawStruct} (hrest : raw'.rest = raw.rest)
  (h : Relists Feature.all raw.features raw'.features)

include hrest h

theorem spec_relisted : raw'.spec = raw.spec := by
  rw [spec_eq, hrest, h.featuresOf_eq, ← spec_eq]

theorem checks_relisted (file : String) : (raw'.checks file).map (List.map Error.unplaced) =
    (raw.checks file).map (List.map Error.unplaced) := by
  have hname : raw'.name = raw.name := (congrArg RawStruct.name hrest :)
  have hfields : raw'.fields = raw.fields := (congrArg RawStruct.fields hrest :)
  have hasks : raw'.asksGenerators ↔ raw.asksGenerators := h.same _
  have hgenerators : raw'.generatorFlaws file = raw.generatorFlaws file := by
    simp only [generatorFlaws, hasks, hname, hfields]
  rw [checks_unplaced, checks_unplaced, h.tokenFlaws_eq, hrest, hgenerators]

end

end RawStruct

/-! ### Enums -/

namespace RawEnum

@[inherit_doc RawStruct.rest]
def rest (raw : RawEnum) : RawEnum := { raw with features := [] }

section

variable {raw raw' : RawEnum} (hrest : raw'.rest = raw.rest)
  (h : Relists Feature.forEnums raw.features raw'.features)

include hrest h

theorem spec_relisted : raw'.spec = raw.spec := by
  have hspec : ∀ raw : RawEnum, raw.spec = { raw.rest.spec with features := featuresOf raw.features } :=
    fun _ => rfl
  rw [hspec, hrest, h.featuresOf_eq, ← hspec]

theorem checks_relisted (file : String) : raw'.checks file = raw.checks file := by
  have hempty : ∀ raw : RawEnum, raw.emptyFlaws file = raw.rest.emptyFlaws file := fun _ => rfl
  rw [checks, checks, h.tokenFlaws_eq, hempty, hrest, ← hempty]

end

end RawEnum

/-! ### Variants -/

namespace RawVariant

@[inherit_doc RawStruct.rest]
def rest (raw : RawVariant) : RawVariant := { raw with
  features := []
  includes := raw.includes.map unplaced
  sourceIncludes := raw.sourceIncludes.map unplaced }

theorem spec_eq (raw : RawVariant) :
    raw.spec = { raw.rest.spec with features := featuresOf raw.features } := by
  simp only [spec, rest, includesOf_unplaced]

theorem checks_unplaced (file : String) (raw : RawVariant) :
    (raw.checks file).map (List.map Error.unplaced) =
      [(tokenFlaws Feature.all file raw.features).map Error.unplaced,
        includeFlaws file raw.rest.includes, includeFlaws file raw.rest.sourceIncludes,
        raw.rest.emptyFlaws file, raw.rest.keyFlaws file] := by
  have hempty : (raw.emptyFlaws file).map Error.unplaced = raw.rest.emptyFlaws file := by
    rw [emptyFlaws, apply_ite (List.map Error.unplaced)]
    rfl
  have hkeys : (raw.keyFlaws file).map Error.unplaced = raw.rest.keyFlaws file := by
    rw [keyFlaws, apply_ite (List.map Error.unplaced)]
    rfl
  simp only [checks, List.map_cons, List.map_nil, includeFlaws_unplaced, hempty, hkeys]
  rfl

section

variable {raw raw' : RawVariant} (hrest : raw'.rest = raw.rest)
  (h : Relists Feature.all raw.features raw'.features)

include hrest h

theorem spec_relisted : raw'.spec = raw.spec := by
  rw [spec_eq, hrest, h.featuresOf_eq, ← spec_eq]

theorem checks_relisted (file : String) : (raw'.checks file).map (List.map Error.unplaced) =
    (raw.checks file).map (List.map Error.unplaced) := by
  rw [checks_unplaced, checks_unplaced, h.tokenFlaws_eq, hrest]

end

end RawVariant

/-! ### Any kind -/

namespace Raw

@[inherit_doc RawStruct.rest]
def rest : Raw → Raw
  | .struct raw => .struct raw.rest
  | .enum raw => .enum raw.rest
  | .variant raw => .variant raw.rest

/-- The tokens of the features. -/
def features : Raw → List Located
  | .struct raw => raw.features
  | .enum raw => raw.features
  | .variant raw => raw.features

/-- What a spec of the kind may ask for. -/
def allowed : Raw → List Feature
  | .struct _ => Feature.all
  | .enum _ => Feature.forEnums
  | .variant _ => Feature.all

/-- A raw spec that is checked comes to the same with its features listed in another way. -/
theorem check_relisted {raw raw' : Raw} (hrest : raw'.rest = raw.rest)
    (h : Relists raw.allowed raw.features raw'.features) (file : String) :
    (raw'.check file).mapError Error.unplaced = (raw.check file).mapError Error.unplaced := by
  have hspec : raw'.spec = raw.spec ∧ (raw'.checks file).map (List.map Error.unplaced) =
      (raw.checks file).map (List.map Error.unplaced) := by
    cases raw with
    | struct raw =>
      cases raw' with
      | struct raw' =>
        have hrest := Raw.struct.inj hrest
        exact ⟨congrArg Spec.struct (RawStruct.spec_relisted hrest h), RawStruct.checks_relisted hrest h file⟩
      | _ => cases hrest
    | enum raw =>
      cases raw' with
      | enum raw' =>
        have hrest := Raw.enum.inj hrest
        exact ⟨congrArg Spec.enum (RawEnum.spec_relisted hrest h),
          congrArg _ (RawEnum.checks_relisted hrest h file)⟩
      | _ => cases hrest
    | variant raw =>
      cases raw' with
      | variant raw' =>
        have hrest := Raw.variant.inj hrest
        exact ⟨congrArg Spec.variant (RawVariant.spec_relisted hrest h), RawVariant.checks_relisted hrest h file⟩
      | _ => cases hrest
  rw [check_eq, check_eq, mapError_firstOr, mapError_firstOr, List.map_flatten, List.map_flatten,
    hspec.1, hspec.2]

theorem contains_features {raw : Raw} {f : Feature} :
    raw.spec.head.features.contains f = true ↔ ∃ t ∈ raw.features, t.text = f.token := by
  cases raw <;> exact contains_featuresOf

end Raw

/-! ### Texts -/

/-- Two texts of specs that list the same features, all of them allowed; all else in them is equal. -/
structure RelistedText (kind : Kind) (text text' : String) (raw raw' : Raw) : Prop where
  decoded : Raw.decode? kind text = some raw
  decoded' : Raw.decode? kind text' = some raw'
  rest : raw'.rest = raw.rest
  relists : Relists raw.allowed raw.features raw'.features

/-- A spec asks for what its text lists. -/
theorem contains_features_of_parse {kind : Kind} {text file : String} {raw : Raw} {s : Spec}
    (hraw : Raw.decode? kind text = some raw) (h : parse kind text file = .ok s) {f : Feature} :
    s.head.features.contains f = true ↔ ∃ t ∈ raw.features, t.text = f.token := by
  rw [Raw.parse_eq, hraw] at h
  change raw.check file = .ok s at h
  rw [Raw.check_eq, firstOr_eq_ok] at h
  rw [← h.2, Raw.contains_features]

theorem parse_relisted {kind : Kind} {text text' : String} {raw raw' : Raw}
    (h : RelistedText kind text text' raw raw') (file : String) :
    (parse kind text' file).mapError Error.unplaced = (parse kind text file).mapError Error.unplaced := by
  rw [Raw.parse_eq, Raw.parse_eq, h.decoded, h.decoded']
  exact Raw.check_relisted h.rest h.relists file

/-- In whatever order the features of a spec are listed, and however often, it is read as the same spec
with just these features, for which the same header and source are written with the same includes. The
set that features are put into is in emission order, has what was put in, and tells when something is
put in for the first time. -/
theorem features_relisted :
    (∀ kind text text' raw raw' file, RelistedText kind text text' raw raw' →
      (parse kind text' file).mapError Error.unplaced = (parse kind text file).mapError Error.unplaced ∧
      ∀ s, parse kind text file = .ok s →
        (∀ f, s.head.features.contains f = true ↔ ∃ t ∈ raw.features, t.text = f.token) ∧
        ∃ s', parse kind text' file = .ok s' ∧ s' = s ∧
          headerCode s' = headerCode s ∧ sourceCode s' = sourceCode s ∧
          headerIncludes s' = headerIncludes s ∧ sourceIncludes s' = sourceIncludes s) ∧
    ∀ fs : List Feature,
      IsOrdered (FeatureSet.empty.insertAll fs).1.toList ∧
      (∀ f, (FeatureSet.empty.insertAll fs).1.contains f = true ↔ f ∈ fs) ∧
      ∀ i : Nat, (FeatureSet.empty.insertAll fs).2[i]? = fs[i]?.map fun f => decide (f ∉ fs.take i) := by
  refine ⟨fun kind text text' raw raw' file h => ?_, fun fs => ⟨FeatureSet.ordered _, ?_, ?_⟩⟩
  · have hparse := parse_relisted h file
    refine ⟨hparse, fun s hs => ⟨fun f => contains_features_of_parse h.decoded hs, ?_⟩⟩
    rw [hs] at hparse
    cases hs' : parse kind text' file with
    | error => rw [hs'] at hparse; cases hparse
    | ok s' =>
      rw [hs'] at hparse
      cases hparse
      exact ⟨s, rfl, rfl, rfl, rfl, rfl, rfl⟩
  · intro f
    rw [FeatureSet.fst_insertAll, FeatureSet.contains, List.contains_iff_mem,
      FeatureSet.mem_foldl_insert]
    simp [FeatureSet.empty]
  · intro i
    rw [FeatureSet.snd_insertAll]
    simp [FeatureSet.empty, FeatureSet.contains]

/-- Listed backwards and one of them twice, which moves what comes after them. -/
theorem features_relisted_twice :
    let text := "name = \"A\"\nfeatures = [\"eq\", \"fmt\"]\nfields = []\nincludes = [\"<a>\"]\n"
    let text' :=
      "name = \"A\"\nfeatures = [\"fmt\", \"eq\", \"fmt\"]\nfields = []\nincludes = [\"<a>\"]\n"
    ∃ s, parse .struct text "a.struct.toml" = .ok s ∧ parse .struct text' "a.struct.toml" = .ok s := by
  intro text text'
  have hdecoded : Raw.decode? .struct text = some (.struct ⟨none, [], "A", [],
      [⟨"eq", ⟨23, 4⟩⟩, ⟨"fmt", ⟨29, 5⟩⟩], [⟨"<a>", ⟨60, 5⟩⟩], [], [], [], none⟩) := by
    decide +kernel
  have hdecoded' : Raw.decode? .struct text' = some (.struct ⟨none, [], "A", [],
      [⟨"fmt", ⟨23, 5⟩⟩, ⟨"eq", ⟨30, 4⟩⟩, ⟨"fmt", ⟨36, 5⟩⟩], [⟨"<a>", ⟨67, 5⟩⟩], [], [], [], none⟩) := by
    decide +kernel
  have hok : (parse .struct text "a.struct.toml").isOk = true := by decide +kernel
  obtain ⟨s, hs⟩ : ∃ s, parse .struct text "a.struct.toml" = .ok s := by
    cases hs : parse .struct text "a.struct.toml" with
    | ok s => exact ⟨s, rfl⟩
    | error => rw [hs] at hok; cases hok
  have hrelists : Relists Feature.all [⟨"eq", ⟨23, 4⟩⟩, ⟨"fmt", ⟨29, 5⟩⟩]
      [⟨"fmt", ⟨23, 5⟩⟩, ⟨"eq", ⟨30, 4⟩⟩, ⟨"fmt", ⟨36, 5⟩⟩] :=
    ⟨by decide, fun token => by simp; grind⟩
  obtain ⟨-, s', hs', rfl, -⟩ := (features_relisted.1 .struct text text' _ _ "a.struct.toml"
    ⟨hdecoded, hdecoded', rfl, hrelists⟩).2 s hs
  exact ⟨s', hs, hs'⟩

end TypeGen.Spec
