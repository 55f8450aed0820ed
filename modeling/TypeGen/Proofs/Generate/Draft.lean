import TypeGen.Project.Generate
import TypeGen.Proofs.Layout.Naming

/-!
What generating one spec comes to. A spec is read into a draft, from which both texts follow but for
the path by which the header is included; then header and source are written, unless both already
tell of the spec's text and such files are to be left alone.
-/

namespace TypeGen.Project

open TypeGen.Render TypeGen.Spec TypeGen.Store

/-- A spec that has been read and understood. -/
structure Draft where
  spec : FilePath
  header : FilePath
  text : String
  content : Spec

namespace Draft

def metadata (w : Draft) : Metadata := Metadata.ofSpec w.text

/-- The name by which the generated files tell of the spec. -/
def name (w : Draft) (l : Layout) : String := (l.relative w.spec).slashed

def headerText (w : Draft) (l : Layout) : String :=
  Project.headerText (w.name l) w.metadata (l.headerGuard w.header) (headerCode w.content)

/-- The source that includes the header by a given path. -/
def sourceText (w : Draft) (l : Layout) (path : FilePath) : String :=
  Project.sourceText (w.name l) w.metadata path.slashed (sourceCode w.content)

end Draft

/-- Reads a spec from the disk. -/
def Layout.draft (l : Layout) (d : Disk) (spec : FilePath) : Except Failure Draft :=
  match kindOf? spec, l.headerPath? spec with
  | some kind, some header =>
    match d.read spec with
    | .ok text =>
      match Spec.parse kind text (l.relative spec).slashed with
      | .ok s => .ok ⟨spec, header, text, s⟩
      | .error e => .error (.spec e)
    | .error why => .error (.spec (.unreadable spec.text why))
  | _, _ => .error (.spec (.unknownKind spec.text))

theorem Layout.draft_eq_ok {l : Layout} {d : Disk} {spec : FilePath} {w : Draft}
    (h : l.draft d spec = .ok w) : w.spec = spec ∧ l.headerPath? spec = some w.header ∧
      d.readText? spec = some w.text ∧
      ∃ kind, kindOf? spec = some kind ∧ Spec.parse kind w.text (w.name l) = .ok w.content := by
  rw [draft] at h
  split at h
  next kind header hk hh =>
    split at h
    next text ht =>
      split at h
      next s hs => cases h; exact ⟨rfl, hh, Disk.readText?_eq_some_iff.2 ht, kind, hk, hs⟩
      next => cases h
    next => cases h
  next => cases h

/-- Of a disk only the text of the spec goes into its draft. -/
theorem Layout.draft_congr {l : Layout} {d e : Disk} {spec : FilePath} {w : Draft}
    (h : l.draft d spec = .ok w) (hread : e.readText? spec = some w.text) :
    l.draft e spec = .ok w := by
  have hd := Disk.readText?_eq_some_iff.1 (draft_eq_ok h).2.2.1
  rw [← h, draft, draft, Disk.readText?_eq_some_iff.1 hread, hd]

namespace Generator

/-- The same generator, but it leaves nothing alone. -/
def eager (g : Generator) : Generator := { g with skipUnchanged := false }

/-- Writes both files of a draft. -/
def writeDraft (g : Generator) (d : Disk) (w : Draft) : Disk × Outcome :=
  g.write d w.spec w.header (g.layout.sourcePath d w.header) w.metadata w.content

theorem generate_eager (g : Generator) (d : Disk) (spec : FilePath) :
    g.eager.generate d spec = match g.layout.draft d spec with
      | .ok w => g.writeDraft d w
      | .error cause => (d, .failed cause) := by
  rw [generate, Layout.draft]
  change (match kindOf? spec, g.layout.headerPath? spec with
    | some kind, some header => _
    | _, _ => _) = _
  split
  next kind header hk hh =>
    cases d.read spec with
    | error why => rfl
    | ok text =>
      simp only [generateText, eager]
      cases Spec.parse kind text (g.layout.relative spec).slashed <;> rfl
  next => rfl

/-- Leaving files alone is the only thing that a generator can do instead. -/
theorem generate_eq_eager_or (g : Generator) (d : Disk) (spec : FilePath) :
    g.generate d spec = g.eager.generate d spec ∨
      ∃ header text, g.layout.headerPath? spec = some header ∧ d.readText? spec = some text ∧
        (isCurrent d header (g.layout.sourcePath d header) (Metadata.ofSpec text) = .ok true ∧
            g.generate d spec = (d, .unchanged) ∨
          ∃ fault, isCurrent d header (g.layout.sourcePath d header) (Metadata.ofSpec text) =
            .error fault ∧ g.generate d spec = (d, .aborted fault)) := by
  cases hs : g.skipUnchanged with
  | false => exact .inl (by rw [eager, ← hs])
  | true =>
    rw [generate, generate]
    cases kindOf? spec with
    | none => exact .inl rfl
    | some kind =>
      change _ = (match some kind, g.layout.headerPath? spec with
        | some kind, some header => _
        | _, _ => _) ∨ _
      cases g.layout.headerPath? spec with
      | none => exact .inl rfl
      | some header =>
        cases hread : d.read spec with
        | error why => exact .inl rfl
        | ok text =>
          have htext := Disk.readText?_eq_some_iff.2 hread
          simp only [generateText, eager, hs, if_true]
          cases hc : isCurrent d header (g.layout.sourcePath d header) (Metadata.ofSpec text) with
          | error fault => exact .inr ⟨header, text, rfl, htext, .inr ⟨fault, hc, rfl⟩⟩
          | ok current =>
            cases current with
            | true => exact .inr ⟨header, text, rfl, htext, .inl ⟨hc, rfl⟩⟩
            | false => exact .inl rfl

/-- What a generator makes of a draft: nothing, if such files are left alone and both already tell of
the spec as it is. -/
theorem generate_of_draft {g : Generator} {d : Disk} {spec : FilePath} {w : Draft}
    (h : g.layout.draft d spec = .ok w) : g.generate d spec =
      match if g.skipUnchanged then isCurrent d w.header (g.layout.sourcePath d w.header) w.metadata
        else .ok false with
      | .error fault => (d, .aborted fault)
      | .ok true => (d, .unchanged)
      | .ok false => g.writeDraft d w := by
  obtain ⟨hspec, hheader, htext, kind, hkind, hparse⟩ := Layout.draft_eq_ok h
  rw [Draft.name, hspec] at hparse
  rw [generate, hkind, hheader, Disk.readText?_eq_some_iff.1 htext]
  simp only [generateText, hparse, writeDraft, hspec]
  rfl

/-- What may come of writing a draft. -/
inductive Writes (g : Generator) (d : Disk) (w : Draft) : Disk → Outcome → Prop where
  | noHeader {d' : Disk} {fault : Fault}
      (header : save d w.header (w.headerText g.layout) = (d', .error fault)) :
      Writes g d w d' (.aborted fault)
  | unfound {d' : Disk} {missing : MissingHeader}
      (header : save d w.header (w.headerText g.layout) = (d', .ok ()))
      (found : g.layout.includePath d' w.header = .error missing) :
      Writes g d w d' (.failed (.missingHeader missing))
  | noSource {d₁ d' : Disk} {path : FilePath} {fault : Fault}
      (header : save d w.header (w.headerText g.layout) = (d₁, .ok ()))
      (found : g.layout.includePath d₁ w.header = .ok path)
      (source : save d₁ (g.layout.sourcePath d w.header) (w.sourceText g.layout path) =
        (d', .error fault)) :
      Writes g d w d' (.aborted fault)
  | both {d₁ d' : Disk} {path : FilePath}
      (header : save d w.header (w.headerText g.layout) = (d₁, .ok ()))
      (found : g.layout.includePath d₁ w.header = .ok path)
      (source : save d₁ (g.layout.sourcePath d w.header) (w.sourceText g.layout path) =
        (d', .ok ())) :
      Writes g d w d' (.generated ⟨w.spec, w.header, g.layout.sourcePath d w.header⟩)

theorem writes_writeDraft (g : Generator) (d : Disk) (w : Draft) :
    Writes g d w (g.writeDraft d w).1 (g.writeDraft d w).2 := by
  rw [writeDraft, write]
  split
  next hs => exact .noHeader hs
  next hs =>
    split
    next hp => exact .unfound hs hp
    next hp =>
      split
      next hs' => exact .noSource hs hp hs'
      next hs' => exact .both hs hp hs'

theorem Writes.eq {g : Generator} {d d' : Disk} {w : Draft} {o : Outcome} (h : Writes g d w d' o) :
    g.writeDraft d w = (d', o) := by
  rw [writeDraft, write]
  cases h with
  | noHeader header => rw [Draft.headerText, Draft.name] at header; simp only [header]
  | unfound header found => rw [Draft.headerText, Draft.name] at header; simp only [header, found]
  | noSource header found source | both header found source =>
    rw [Draft.headerText, Draft.name] at header
    rw [Draft.sourceText, Draft.name] at source
    simp only [header, found, source]

/-- A generator does nothing, or it writes the draft of the spec. -/
theorem generate_cases (g : Generator) (d : Disk) (spec : FilePath) :
    (g.generate d spec).1 = d ∨ ∃ w, g.layout.draft d spec = .ok w ∧
      Writes g d w (g.generate d spec).1 (g.generate d spec).2 := by
  rcases generate_eq_eager_or g d spec with he | ⟨_, _, -, -, ⟨-, he⟩ | ⟨_, -, he⟩⟩
  · rw [he, generate_eager]
    cases hw : g.layout.draft d spec with
    | ok w => exact .inr ⟨w, rfl, writes_writeDraft g d w⟩
    | error cause => exact .inl rfl
  · rw [he]; exact .inl rfl
  · rw [he]; exact .inl rfl

theorem generate_eager_ne_unchanged (g : Generator) (d : Disk) (spec : FilePath) :
    (g.eager.generate d spec).2 ≠ .unchanged := by
  intro h
  rw [generate_eager] at h
  split at h
  next w _ => have hw := writes_writeDraft g d w; rw [h] at hw; cases hw
  next => cases h

/-- What has happened when files are reported as generated. -/
theorem generate_generated {g : Generator} {d d' : Disk} {spec : FilePath} {files : Generated}
    (h : g.generate d spec = (d', .generated files)) :
    ∃ w, g.layout.draft d spec = .ok w ∧ Writes g d w d' (.generated files) := by
  have heager : g.eager.generate d spec = (d', .generated files) := by
    rcases generate_eq_eager_or g d spec with he | ⟨_, _, -, -, ⟨-, he⟩ | ⟨_, -, he⟩⟩
    · rw [← he, h]
    · rw [he] at h; cases h
    · rw [he] at h; cases h
  rw [generate_eager] at heager
  split at heager
  next w hw => exact ⟨w, hw, by simpa [heager] using writes_writeDraft g d w⟩
  next => cases heager

/-! ### Runs -/

theorem generateEach_of_ne_aborted {g : Generator} {d e : Disk} {spec : FilePath} {o : Outcome}
    (h : g.generate d spec = (e, o)) (hne : ∀ fault, o ≠ .aborted fault) (specs : List FilePath) :
    (g.generateEach d (spec :: specs)).1 = (g.generateEach e specs).1 := by
  rw [generateEach]
  split
  next fault hgen => rw [h] at hgen; exact absurd (Prod.mk.inj hgen).2 (hne fault)
  next hgen =>
    rw [h] at hgen
    obtain ⟨rfl, -⟩ := Prod.mk.inj hgen
    split <;> next hr => rw [hr]

/-- A run ends with its first spec, or it is a run of the others on the disk that this one left. -/
theorem generateEach_cons (g : Generator) (d : Disk) (spec : FilePath) (specs : List FilePath) :
    (g.generateEach d (spec :: specs)).1 = (g.generate d spec).1 ∨
      (g.generateEach d (spec :: specs)).1 = (g.generateEach (g.generate d spec).1 specs).1 := by
  by_cases hne : ∀ fault, (g.generate d spec).2 ≠ .aborted fault
  · exact .inr (generateEach_of_ne_aborted rfl hne specs)
  · obtain ⟨fault, hfault⟩ := not_forall_not.1 hne
    refine .inl ?_
    rw [generateEach]
    split
    next hgen => rw [hgen]
    next hnot hgen => rw [hgen] at hfault; exact absurd hfault (hnot fault)

/-- A run comes to what its specs come to, and leaves what the formatter makes of it. -/
theorem run_eq_ok {g : Generator} {d d' : Disk} {specs : List FilePath} {report : Report} :
    g.run d specs = (d', .ok report) ↔ ∃ e, g.generateEach d specs = (e, .ok report) ∧
      format g.formatter e g.layout.root report.written = (d', .ok ()) := by
  rw [run]
  constructor
  · intro h
    split at h
    next => cases h
    next e r hr =>
      split at h
      next hf => cases h; exact ⟨e, hr, hf⟩
      next => cases h
  · rintro ⟨e, hr, hf⟩
    simp only [hr, hf]

/-- Without a formatter that is all. -/
theorem run_eq_ok_of_unformatted {g : Generator} {d d' : Disk} {specs : List FilePath}
    {report : Report} (h : g.formatter = none) :
    g.run d specs = (d', .ok report) ↔ g.generateEach d specs = (d', .ok report) := by
  rw [run_eq_ok, h]
  constructor
  · rintro ⟨e, hr, hf⟩
    cases hf
    exact hr
  · exact fun hr => ⟨d', hr, rfl⟩

end Generator

end TypeGen.Project
