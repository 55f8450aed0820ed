import TypeGen.Command.Run
import TypeGen.Proofs.Generate.Failing
import TypeGen.Proofs.Spec.Accepting

/-!
Checking against generating. Reading a spec under another name of its file changes that name in the
errors and nothing else. A generator reads a spec under its name in the project, and after reading it
nothing can fail; so it fails on the specs that checking finds errors in, and on no others.
-/

namespace TypeGen.Spec

/-! ### Names of files -/

/-- The same error in a file of another name. What is wrong with a path stays with that path. -/
def Error.inFile (file : String) : Error → Error
  | .syntaxError _ form text => .syntaxError file form text
  | .unknownFeature _ token valid span => .unknownFeature file token valid span
  | .malformedInclude _ text span => .malformedInclude file text span
  | .invalid _ message span => .invalid file message span
  | e => e

namespace Error

variable (file : String) (e : Error)

theorem code_inFile : (e.inFile file).code = e.code := by cases e <;> rfl

theorem help_inFile : (e.inFile file).help = e.help := by cases e <;> rfl

theorem labels_inFile (critic : Critic) : (e.inFile file).labels critic = e.labels critic := by
  cases e with
  | invalid _ message span => cases span <;> rfl
  | _ => rfl

theorem cause_inFile (critic : Critic) : (e.inFile file).cause critic = e.cause critic := by
  cases e <;> rfl

end Error

section

variable (file file' : String)

theorem tokenFlaws_inFile (allowed : List Feature) (tokens : List Toml.Located) :
    (tokenFlaws allowed file tokens).map (Error.inFile file') = tokenFlaws allowed file' tokens := by
  rw [tokenFlaws, List.map_map]
  rfl

theorem includeFlaws_inFile (written : List Toml.Located) :
    (includeFlaws file written).map (Error.inFile file') = includeFlaws file' written := by
  rw [includeFlaws, List.map_map]
  rfl

theorem RawStruct.generatorFlaws_inFile (raw : RawStruct) :
    (raw.generatorFlaws file).map (Error.inFile file') = raw.generatorFlaws file' := by
  rw [generatorFlaws, generatorFlaws, apply_ite (List.map (Error.inFile file')), List.map_map]
  rfl

/-- Every check finds the same flaws, whatever the file is called. -/
theorem Raw.checks_inFile (raw : Raw) :
    (raw.checks file).map (List.map (Error.inFile file')) = raw.checks file' := by
  cases raw with
  | struct raw =>
    simp only [checks, RawStruct.checks, List.map_cons, List.map_nil, tokenFlaws_inFile,
      includeFlaws_inFile, RawStruct.generatorFlaws_inFile]
  | enum raw =>
    have hempty : (raw.emptyFlaws file).map (Error.inFile file') = raw.emptyFlaws file' := by
      rw [RawEnum.emptyFlaws, RawEnum.emptyFlaws]
      split <;> rfl
    simp only [checks, RawEnum.checks, List.map_cons, List.map_nil, tokenFlaws_inFile, hempty]
  | variant raw =>
    have hempty : (raw.emptyFlaws file).map (Error.inFile file') = raw.emptyFlaws file' := by
      rw [RawVariant.emptyFlaws, RawVariant.emptyFlaws]
      split <;> rfl
    have hkeys : (raw.keyFlaws file).map (Error.inFile file') = raw.keyFlaws file' := by
      rw [RawVariant.keyFlaws, RawVariant.keyFlaws]
      split <;> rfl
    simp only [checks, RawVariant.checks, List.map_cons, List.map_nil, tokenFlaws_inFile,
      includeFlaws_inFile, hempty, hkeys]

/-- The name of the file is all that reading takes from it besides its text. -/
theorem parse_inFile (kind : Kind) (text : String) :
    parse kind text file' = (parse kind text file).mapError (Error.inFile file') := by
  rw [Raw.parse_eq, Raw.parse_eq]
  cases Raw.decode? kind text with
  | none => rfl
  | some raw =>
    change raw.check file' = (raw.check file).mapError _
    rw [Raw.check_eq, Raw.check_eq, mapError_firstOr, List.map_flatten, Raw.checks_inFile]

end

end TypeGen.Spec

namespace TypeGen.Project

open TypeGen.Command TypeGen.Spec TypeGen.Store

/-! ### Reading and drafting -/

/-- A draft holds what reading the spec gives, and there is none only where reading fails. -/
theorem Layout.map_draft (l : Layout) (d : Disk) (spec : FilePath) :
    (l.draft d spec).map Draft.content = (readSpec d spec).mapError fun e =>
      .spec (e.inFile (l.relative spec).slashed) := by
  rw [draft, readSpec]
  cases hkind : kindOf? spec with
  | none => rfl
  | some kind =>
    obtain ⟨header, hheader⟩ := l.exists_headerPath? hkind
    rw [hheader]
    simp only [readSpecAs]
    cases d.read spec with
    | error why => rfl
    | ok text =>
      simp only [parse_inFile spec.text (l.relative spec).slashed kind text]
      cases Spec.parse kind text spec.text <;> rfl

theorem Layout.draft_eq_error {l : Layout} {d : Disk} {spec : FilePath} {cause : Failure} :
    l.draft d spec = .error cause ↔ ∃ e, readSpec d spec = .error e ∧
      cause = .spec (e.inFile (l.relative spec).slashed) := by
  have hmap := l.map_draft d spec
  cases hd : l.draft d spec with
  | ok w =>
    cases hr : readSpec d spec with
    | ok s => simp
    | error e => rw [hd, hr] at hmap; cases hmap
  | error cause' =>
    cases hr : readSpec d spec with
    | ok s => rw [hd, hr] at hmap; cases hmap
    | error e =>
      rw [hd, hr] at hmap
      obtain rfl : cause' = .spec (e.inFile (l.relative spec).slashed) := Except.error.inj hmap
      simp [eq_comm]

/-- Nothing fails in a generator but drafting. -/
theorem Generator.eager_failed_iff {g : Generator} {d : Disk} {spec : FilePath} {cause : Failure} :
    (g.eager.generate d spec).2 = .failed cause ↔ g.layout.draft d spec = .error cause := by
  rw [generate_eager]
  cases g.layout.draft d spec with
  | ok w => simpa using (writes_writeDraft g d w).ne_failed cause
  | error cause' => simp

/-! ### Checking -/

theorem errorOf?_eq_some {ε α : Type} {x : Except ε α} {e : ε} :
    errorOf? x = some e ↔ x = .error e := by
  cases x <;> simp [errorOf?]

theorem code_runCheck (d : Disk) (l : Layout) (specs : List FilePath) :
    (runCheck d l specs).code = 0 ↔
      ∀ spec ∈ if specs.isEmpty then l.specFiles d else specs, ∀ e, readSpec d spec ≠ .error e := by
  simp only [runCheck, ite_eq_left_iff, one_ne_zero, imp_false, not_not, List.isEmpty_iff,
    List.filterMap_eq_nil_iff, Option.eq_none_iff_forall_ne_some, ne_eq, errorOf?_eq_some]

/-- A generator that leaves nothing alone fails on a spec exactly when reading the spec does, and with
the same error, in which the file has its name in the project. The two errors point at the same places
and the same is behind them, whatever the reader of TOML has to say. So a check passes exactly when no
spec would fail. -/
theorem failed_iff_readSpec (g : Generator) (d : Disk) :
    (∀ spec cause, (g.eager.generate d spec).2 = .failed cause ↔
      ∃ e, readSpec d spec = .error e ∧ cause = .spec (e.inFile (g.layout.relative spec).slashed)) ∧
    (∀ (e : Error) file, (e.inFile file).code = e.code ∧ (e.inFile file).help = e.help ∧
      ∀ critic, (e.inFile file).labels critic = e.labels critic ∧
        (e.inFile file).cause critic = e.cause critic) ∧
    ∀ specs, (runCheck d g.layout specs).code = 0 ↔
      ∀ spec ∈ if specs.isEmpty then g.layout.specFiles d else specs,
        ∀ cause, (g.eager.generate d spec).2 ≠ .failed cause := by
  have hfailed : ∀ spec cause, (g.eager.generate d spec).2 = .failed cause ↔ ∃ e,
      readSpec d spec = .error e ∧ cause = .spec (e.inFile (g.layout.relative spec).slashed) :=
    fun spec cause => Generator.eager_failed_iff.trans Layout.draft_eq_error
  refine ⟨hfailed, fun e file => ⟨e.code_inFile file, e.help_inFile file, fun critic =>
    ⟨e.labels_inFile file critic, e.cause_inFile file critic⟩⟩, fun specs => ?_⟩
  rw [code_runCheck]
  refine forall₂_congr fun spec _ => ⟨fun h cause hcause => ?_, fun h e he => ?_⟩
  · obtain ⟨e, he, -⟩ := (hfailed spec cause).1 hcause
    exact h e he
  · exact h _ ((hfailed spec _).2 ⟨e, he, rfl⟩)

/-- A struct that asks for a feature that there is not, and an enum that breaks off. -/
def flawedSpecs : Disk :=
  furnish [] [("r/foo.struct.toml", "name = \"A\"\nfeatures = [\"x\"]\nfields = []\n"),
    ("r/foo.enum.toml", "name =\n")]

/-- The generator has shorter names for the files that hold them. -/
theorem failed_iff_readSpec_flawed :
    (sampleGenerator.eager.generate flawedSpecs ofStruct).2 =
      .failed (.spec (.unknownFeature "foo.struct.toml" "x" (Feature.all.map Feature.token) ⟨23, 3⟩)) ∧
    (sampleGenerator.eager.generate flawedSpecs ofEnum).2 =
      .failed (.spec (.syntaxError "foo.enum.toml" (.spec .enum) "name =\n")) ∧
    (runCheck flawedSpecs sampleGenerator.layout []).code ≠ 0 := by
  obtain ⟨hfailed, -, hcode⟩ := failed_iff_readSpec sampleGenerator flawedSpecs
  have hstruct : errorOf? (readSpec flawedSpecs ofStruct) =
      some (.unknownFeature "r/foo.struct.toml" "x" (Feature.all.map Feature.token) ⟨23, 3⟩) := by
    decide +kernel
  have henum : errorOf? (readSpec flawedSpecs ofEnum) =
      some (.syntaxError "r/foo.enum.toml" (.spec .enum) "name =\n") := by
    decide +kernel
  have hfails := (hfailed ofStruct _).2 ⟨_, errorOf?_eq_some.1 hstruct, rfl⟩
  have hfails' := (hfailed ofEnum _).2 ⟨_, errorOf?_eq_some.1 henum, rfl⟩
  have hname : (sampleGenerator.layout.relative ofStruct).slashed = "foo.struct.toml" := by
    decide +kernel
  have hname' : (sampleGenerator.layout.relative ofEnum).slashed = "foo.enum.toml" := by
    decide +kernel
  have hmem : ofStruct ∈ sampleGenerator.layout.specFiles flawedSpecs := by decide +kernel
  refine ⟨?_, ?_, fun h => (hcode []).1 h ofStruct hmem _ hfails⟩
  · rw [hfails, hname]
    rfl
  · rw [hfails', hname']
    rfl

end TypeGen.Project
