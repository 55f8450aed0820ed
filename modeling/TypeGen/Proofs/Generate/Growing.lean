import TypeGen.Proofs.Generate.Failing
import TypeGen.Proofs.Generate.Keeping
import TypeGen.Proofs.Generate.Recording
import TypeGen.Proofs.Layout.Settling
import TypeGen.Proofs.Store.Visiting

/-!
What a run adds. Files stay files and directories stay directories; whatever else there is
afterwards has a name that can be written, and its text starts with a comment, which no spec does.
The libraries of the specs that a walk has come to stay, and so do the specs that no output goes to.
-/

namespace TypeGen.Spec

open TypeGen.Toml

/-- A document starts with no slash, so no spec does. -/
theorem exists_parse_eq_error {text : String} (h : text.toList.head? = some '/') (kind : Kind)
    (file : String) : ∃ e, Spec.parse kind text file = .error e := by
  obtain ⟨rest, hrest⟩ : ∃ rest, text.toList = '/' :: rest := by
    cases hcs : text.toList with
    | nil => rw [hcs] at h; cases h
    | cons c cs => rw [hcs] at h; cases h; exact ⟨cs, rfl⟩
  -- a line that is neither empty nor a header starts with a key
  have hlines : ∀ total, readLines total (('/' :: rest).length + 1) ('/' :: rest) = none :=
    fun _ => rfl
  have htable : ∀ form, readTable form text file = .error (.syntaxError file form text) := fun form => by
    have hparse : Toml.parse? text = none := by
      rw [Toml.parse?, hrest]
      change (readLines _ _ _).bind _ = none
      rw [dropMark, hlines]
      · rfl
      · simp
    rw [readTable, hparse]
  have hdecode : ∀ {α : Type} (form : Form) (ofTable? : Table → Option α),
      decode form ofTable? text file = .error (.syntaxError file form text) := fun form ofTable? => by
    rw [decode, htable]; rfl
  refine ⟨.syntaxError file (.spec kind) text, ?_⟩
  cases kind
  · rw [parse, parseStruct, hdecode]; rfl
  · rw [parse, parseEnum, hdecode]; rfl
  · rw [parse, parseVariant, hdecode]; rfl

end TypeGen.Spec

namespace TypeGen.Store.Disk

/-- What a run makes of a disk: new files start with a slash, as comments do. -/
structure Grown (d e : Disk) : Prop where
  keeps : d.Keeps e
  noLinks : e.tree.NoLinks
  plain : e.tree.HasPlainNames
  texts : ∀ place c, e.tree.get? place = some (.file c) → d.tree.get? place = some (.file c) ∨
    ∃ s, c = .text s ∧ s.toList.head? = some '/'

namespace Grown

variable {d e f : Disk}

theorem refl (hl : d.tree.NoLinks) (ht : d.tree.HasPlainNames) : d.Grown d :=
  ⟨Keeps.refl d, hl, ht, fun _ _ h => .inl h⟩

theorem trans (h : d.Grown e) (h' : e.Grown f) : d.Grown f where
  keeps := h.keeps.trans h'.keeps
  noLinks := h'.noLinks
  plain := h'.plain
  texts place c hc := by
    rcases h'.texts place c hc with hc | hnew
    · exact h.texts place c hc
    · exact .inr hnew

end Grown

end TypeGen.Store.Disk

namespace TypeGen.Project

open TypeGen.Render TypeGen.Spec TypeGen.Store TypeGen.Store.FilePath

/-! ### Saving -/

/-- Generated texts start with a comment. -/
theorem head?_disclaimer (name rest : String) :
    (disclaimer name ++ rest).toList.head? = some '/' := by
  rw [String.toList_append, toList_disclaimer]; rfl

theorem Draft.head?_headerText (w : Draft) {l : Layout} :
    (w.headerText l).toList.head? = some '/' := by
  rw [headerText, Project.headerText]
  simp only [String.append_assoc]
  exact head?_disclaimer _ _

theorem Draft.head?_sourceText (w : Draft) {l : Layout} {path : FilePath} :
    (w.sourceText l path).toList.head? = some '/' := by
  rw [sourceText, Project.sourceText]
  simp only [String.append_assoc]
  exact head?_disclaimer _ _

theorem grown_save {d d' : Disk} (hl : d.tree.NoLinks) (ht : d.tree.HasPlainNames) {p : FilePath}
    {text : String} (h : save d p text = (d', .ok ())) (htext : text.toList.head? = some '/')
    (hp : ∀ name, .name name ∈ p.components → IsPlain name) : d.Grown d' := by
  obtain ⟨place, -, hsaved⟩ := saved_of_save hl h
  refine ⟨hsaved.keeps, hsaved.noLinks hl, hasPlainNames_save hl ht h hp, fun q c hc => ?_⟩
  rcases hsaved.get?_file hc with ⟨-, rfl⟩ | hold
  · exact .inr ⟨text, rfl, htext⟩
  · exact .inl hold

/-- Both files of a draft are saved, the header first. -/
structure Saves (l : Layout) (d : Disk) (w : Draft) (path : FilePath) (d₁ d' : Disk) : Prop where
  header : save d w.header (w.headerText l) = (d₁, .ok ())
  found : l.includePath d₁ w.header = .ok path
  source : save d₁ (l.sourcePath d w.header) (w.sourceText l path) = (d', .ok ())

namespace Layout.IsHeaderOf

variable {l : Layout} {stem : String} {k : Kind} {q header : FilePath}

theorem isPlain_header (h : IsHeaderOf l stem k q header) (hl : l.IsFlat) (hw : q.IsWritten)
    {name : String} (hname : .name name ∈ header.components) : IsPlain name := by
  rw [h.components_of_flat hl] at hname
  rcases List.mem_append.1 hname with hname | hname
  · exact hw.isPlain (List.dropLast_subset _ hname)
  · cases List.mem_singleton.1 hname
    exact Layout.isPlain_header hl h.noSlash

theorem isPlain_source (h : IsHeaderOf l stem k q header) (hl : l.IsFlat) (hw : q.IsWritten)
    (d : Disk) {name : String} (hname : .name name ∈ (l.sourcePath d header).components) : IsPlain name := by
  obtain ⟨stem', hslash, hn⟩ := h.fileName?_source d
  have hdir : ∀ n, .name n ∈ q.components.dropLast → IsPlain n := fun n hn =>
    hw.isPlain (List.dropLast_subset _ hn)
  rw [components_of_fileName? hn] at hname
  rcases List.mem_append.1 hname with hname | hname
  · rcases h.dropLast_source hl d with hsame | ⟨lib, inner, -, hsource, hspec⟩
    · exact hdir name (hsame ▸ hname)
    · rw [hsource] at hname
      rw [hspec] at hdir
      rcases List.mem_append.1 hname with hname | hname
      · exact hdir name (List.mem_append_left _ hname)
      · rcases List.mem_cons.1 hname with h0 | hname
        · cases h0; exact IsSide.sources.isPlain
        · exact hdir name (List.mem_append_right _ (List.mem_cons_of_mem _ hname))
  · cases List.mem_singleton.1 hname
    exact Layout.isPlain_source hslash

end Layout.IsHeaderOf

namespace Saves

variable {l : Layout} {d d₁ d' : Disk} {w : Draft} {path : FilePath}

theorem writeDraft {g : Generator} (h : Saves g.layout d w path d₁ d') : g.writeDraft d w =
    (d', .generated ⟨w.spec, w.header, g.layout.sourcePath d w.header⟩) := by
  have hheader : save d w.header (headerText (g.layout.relative w.spec).slashed w.metadata
      (g.layout.headerGuard w.header) (headerCode w.content)) = (d₁, .ok ()) := h.header
  have hsource : save d₁ (g.layout.sourcePath d w.header)
      (sourceText (g.layout.relative w.spec).slashed w.metadata path.slashed
        (sourceCode w.content)) = (d', .ok ()) := h.source
  rw [Generator.writeDraft, Generator.write]
  simp only [hheader, h.found, hsource]

theorem noLinks (h : Saves l d w path d₁ d') (hl : d.tree.NoLinks) : d'.tree.NoLinks :=
  noLinks_save (noLinks_save hl h.header) h.source

/-- A file stays as it is when the spec of the draft spares it. -/
theorem get?_file (h : Saves l d w path d₁ d') (hl : d.tree.NoLinks)
    (hpath : l.headerPath? w.spec = some w.header) {q : FilePath} {c : Content}
    (hc : d.tree.get? (q.aim d.home) = some (.file c)) (hsp : l.Spares d.home w.spec q) :
    d'.tree.get? (q.aim d.home) = some (.file c) := by
  obtain ⟨hheader, hsource⟩ := hsp w.header hpath (endsInName_of_save h.header)
  refine get?_file_of_save_ne (noLinks_save hl h.header) h.source
    (get?_file_of_save_ne hl h.header hc hheader) ?_
  rw [home_save hl h.header]
  exact hsource d

theorem grown (h : Saves l d w path d₁ d') (hflat : l.IsFlat) (hl : d.tree.NoLinks)
    (ht : d.tree.HasPlainNames) (hw : w.spec.IsWritten)
    (hpath : l.headerPath? w.spec = some w.header) : d.Grown d' := by
  obtain ⟨_, _, hof⟩ := Layout.exists_isHeaderOf hw hpath (endsInName_of_save h.header)
  have hfirst : d.Grown d₁ := grown_save hl ht h.header
    w.head?_headerText fun _ => hof.isPlain_header hflat hw
  exact hfirst.trans (grown_save hfirst.noLinks hfirst.plain h.source
    w.head?_sourceText fun _ => hof.isPlain_source hflat hw d)

end Saves

/-! ### Files that are no specs -/

namespace Layout

variable {d e : Disk} {q : FilePath}

/-- A file that starts with a slash is no spec. -/
theorem exists_draft_eq_error (l : Layout) (hl : d.tree.NoLinks)
    (h : ∀ s, d.tree.get? (q.aim d.home) = some (.file (.text s)) → s.toList.head? = some '/') :
    ∃ cause, l.draft d q = .error cause := by
  cases hdraft : l.draft d q with
  | error cause => exact ⟨cause, rfl⟩
  | ok w =>
    obtain ⟨-, -, hread, kind, -, hparse⟩ := draft_eq_ok hdraft
    obtain ⟨place, hplace, hget⟩ := Disk.readText?_eq_some.1 hread
    rw [← aim_of_filePlace? hl hplace] at hget
    obtain ⟨_, herror⟩ := exists_parse_eq_error (h _ hget) kind (w.name l)
    rw [hparse] at herror; cases herror

/-- A file that a run has written is no spec. -/
theorem exists_draft_eq_error_of_grown (l : Layout) (hg : d.Grown e)
    (hne : e.tree.get? (q.aim d.home) ≠ d.tree.get? (q.aim d.home)) :
    ∃ cause, l.draft e q = .error cause := by
  refine l.exists_draft_eq_error hg.noLinks fun s hs => ?_
  rw [hg.keeps.home] at hs
  rcases hg.texts _ _ hs with hold | ⟨s', hs', hslash⟩
  · exact absurd (hs.trans hold.symm) hne
  · cases hs'; exact hslash

end Layout

/-! ### Specs on a walk -/

/-- A spec file as a walk from the root comes to it. -/
structure Layout.OnWalk (l : Layout) (d : Disk) (p : FilePath) : Prop where
  isWritten : p.IsWritten
  leadsTo : l.root.LeadsTo p.components
  passes : d.Passes p.components.dropLast

theorem Layout.OnWalk.keeps {l : Layout} {d e : Disk} {p : FilePath} (h : l.OnWalk d p)
    (hk : d.Keeps e) : l.OnWalk e p := ⟨h.isWritten, h.leadsTo, h.passes.grows hk.home hk.grows⟩

theorem Layout.onWalk_of_mem_specFiles {l : Layout} {d : Disk} (hl : d.tree.NoLinks)
    (ht : d.tree.HasPlainNames) (hw : l.root.IsWritten) {p : FilePath} (h : p ∈ l.specFiles d) :
    l.OnWalk d p := by
  have hp := (List.mem_filter.1 h).1
  refine ⟨(Disk.mem_files ht hw hp).1, ?_, (Disk.passes_of_mem_files hl ht hp).1⟩
  obtain ⟨-, ⟨rfl, -⟩ | ⟨top, -, names, c, hget, -, rfl⟩⟩ := (Disk.mem_files_iff hl).1 hp
  · exact ⟨[], (List.append_nil _).symm⟩
  · exact ⟨_, Disk.components_under_of_get? ht _ hget⟩

namespace Generator

variable {g : Generator} {d : Disk} {p q header : FilePath}

theorem generate_of_draft_ok (hs : g.skipUnchanged = false) {w : Draft}
    (h : g.layout.draft d q = .ok w) : g.generate d q = g.writeDraft d w := by
  have heager : g.eager = g := by rw [eager, ← hs]
  have hgen := generate_eager g d q
  rw [heager, h] at hgen
  exact hgen

theorem generate_of_draft_error (hs : g.skipUnchanged = false) {cause : Failure}
    (h : g.layout.draft d q = .error cause) : g.generate d q = (d, .failed cause) := by
  have heager : g.eager = g := by rw [eager, ← hs]
  have hgen := generate_eager g d q
  rw [heager, h] at hgen
  exact hgen

/-- A run goes on after a spec that fails. -/
theorem generateEach_of_draft_error (hs : g.skipUnchanged = false) {cause : Failure}
    (hdraft : g.layout.draft d q = .error cause) {specs : List FilePath} {f : Disk} {report : Report}
    (h : g.generateEach d specs = (f, .ok report)) :
    g.generateEach d (q :: specs) = (f, .ok (report.add q (.failed cause))) := by
  have hgen := generate_of_draft_error hs hdraft
  have hcons := generateEach_cons_of_ok (by rw [hgen]; rfl) (by rw [hgen]; exact h)
  rwa [hgen] at hcons

/-- A spec that ends no run fails without a change, or both of its files are saved. -/
theorem generate_cases_of_ok (hs : g.skipUnchanged = false)
    (ha : (g.generate d q).2.isAborted = false) :
    (∃ cause, g.layout.draft d q = .error cause ∧ g.generate d q = (d, .failed cause)) ∨
    ∃ w path d₁, g.layout.draft d q = .ok w ∧ Saves g.layout d w path d₁ (g.generate d q).1 := by
  cases hdraft : g.layout.draft d q with
  | error cause => exact .inl ⟨cause, rfl, generate_of_draft_error hs hdraft⟩
  | ok w =>
    have hwrites := writes_writeDraft g d w
    rw [generate_of_draft_ok hs hdraft] at ha ⊢
    cases hx : g.writeDraft d w with | mk d' o =>
    rw [hx] at hwrites ha
    refine .inr ⟨w, ?_⟩
    cases hwrites with
    | noHeader => cases ha
    | noSource => cases ha
    | unfound header found =>
      exact absurd rfl ((Writes.unfound header found).ne_failed _)
    | both header found source => exact ⟨_, _, rfl, header, found, source⟩

theorem grown_generate (hs : g.skipUnchanged = false) (hflat : g.layout.IsFlat)
    (hl : d.tree.NoLinks) (ht : d.tree.HasPlainNames) (hw : q.IsWritten)
    (ha : (g.generate d q).2.isAborted = false) : d.Grown (g.generate d q).1 := by
  rcases generate_cases_of_ok hs ha with ⟨cause, -, hgen⟩ | ⟨w, path, d₁, hdraft, hsaves⟩
  · rw [hgen]; exact .refl hl ht
  · obtain ⟨rfl, hpath, -⟩ := Layout.draft_eq_ok hdraft
    exact hsaves.grown hflat hl ht hw hpath

/-- A spec has the same library when one is generated that a walk comes to no earlier. -/
theorem library?_generate (hs : g.skipUnchanged = false) (hflat : g.layout.IsFlat)
    (hl : d.tree.NoLinks) (hp : g.layout.OnWalk d p) (hq : g.layout.OnWalk d q)
    (hheader : g.layout.headerPath? p = some header) (hends : EndsInName header.pieces)
    (hle : ¬ q.aim d.home < p.aim d.home) (ha : (g.generate d q).2.isAborted = false) :
    g.layout.library? d header = g.layout.library? (g.generate d q).1 header := by
  rcases generate_cases_of_ok hs ha with ⟨cause, -, hgen⟩ | ⟨w, path, d₁, hdraft, hsaves⟩
  · rw [hgen]
  · obtain ⟨rfl, hpath, -⟩ := Layout.draft_eq_ok hdraft
    obtain ⟨_, _, h⟩ := Layout.exists_isHeaderOf hp.isWritten hheader hends
    obtain ⟨_, _, h'⟩ :=
      Layout.exists_isHeaderOf hq.isWritten hpath (endsInName_of_save hsaves.header)
    exact h.library?_of_saves h' hflat hl hp.leadsTo hq.leadsTo hp.passes hq.passes hle
      hsaves.header hsaves.source

/-! ### Runs -/

variable {f : Disk}

theorem grown_generateEach (hs : g.skipUnchanged = false) (hflat : g.layout.IsFlat) :
    ∀ {specs : List FilePath} {d : Disk} {report : Report}, d.tree.NoLinks → d.tree.HasPlainNames →
      (∀ q ∈ specs, q.IsWritten) → g.generateEach d specs = (f, .ok report) → d.Grown f
  | [], _, _, hl, ht, _, h => by cases h; exact .refl hl ht
  | spec :: specs, d, report, hl, ht, hw, h => by
    obtain ⟨ha, rest, hrest, -⟩ := generateEach_cons_eq_ok h
    have hstep := grown_generate hs hflat hl ht (hw spec (List.mem_cons_self ..)) ha
    exact hstep.trans (grown_generateEach hs hflat hstep.noLinks hstep.plain
      (fun q hq => hw q (List.mem_cons_of_mem _ hq)) hrest)

theorem grown_runAll (hs : g.skipUnchanged = false) (hformat : g.formatter = none)
    (hflat : g.layout.IsFlat) {report : Report} (hl : d.tree.NoLinks) (ht : d.tree.HasPlainNames)
    (hw : g.layout.root.IsWritten) (h : g.runAll d = (f, .ok report)) : d.Grown f :=
  grown_generateEach hs hflat hl ht
    (fun _ hq => (g.layout.onWalk_of_mem_specFiles hl ht hw hq).isWritten)
    ((run_eq_ok_of_unformatted hformat).1 h)

/-- A spec keeps its library through a run over specs that a walk comes to no earlier. -/
theorem library?_generateEach (hs : g.skipUnchanged = false) (hflat : g.layout.IsFlat)
    (hheader : g.layout.headerPath? p = some header) (hends : EndsInName header.pieces) :
    ∀ {specs : List FilePath} {d : Disk} {report : Report}, d.tree.NoLinks → d.tree.HasPlainNames →
      g.layout.OnWalk d p → (∀ q ∈ specs, g.layout.OnWalk d q) →
      (∀ q ∈ specs, ¬ q.aim d.home < p.aim d.home) →
      g.generateEach d specs = (f, .ok report) →
      g.layout.library? d header = g.layout.library? f header
  | [], _, _, _, _, _, _, _, h => by cases h; rfl
  | spec :: specs, d, report, hl, ht, hp, hw, hle, h => by
    obtain ⟨ha, rest, hrest, -⟩ := generateEach_cons_eq_ok h
    have hspec := hw spec (List.mem_cons_self ..)
    have hstep := grown_generate hs hflat hl ht hspec.isWritten ha
    rw [library?_generate hs hflat hl hp hspec hheader hends (hle spec (List.mem_cons_self ..)) ha]
    refine library?_generateEach hs hflat hheader hends hstep.noLinks hstep.plain
      (hp.keeps hstep.keeps) (fun q hq => (hw q (List.mem_cons_of_mem _ hq)).keeps hstep.keeps)
      (fun q hq => ?_) hrest
    rw [hstep.keeps.home]
    exact hle q (List.mem_cons_of_mem _ hq)

/-- A file that no output goes to is as it was after a run. -/
theorem get?_generateEach (hs : g.skipUnchanged = false) {c : Content} : ∀ {specs : List FilePath}
    {d : Disk} {report : Report}, d.tree.NoLinks → d.tree.get? (p.aim d.home) = some (.file c) →
      (∀ q ∈ specs, g.layout.Spares d.home q p) → g.generateEach d specs = (f, .ok report) →
      f.tree.get? (p.aim d.home) = some (.file c)
  | [], _, _, _, hc, _, h => by cases h; exact hc
  | spec :: specs, d, report, hl, hc, hsp, h => by
    obtain ⟨ha, rest, hrest, -⟩ := generateEach_cons_eq_ok h
    have hhome := home_generate g hl spec
    have hstep : (g.generate d spec).1.tree.get? (p.aim d.home) = some (.file c) := by
      rcases generate_cases_of_ok hs ha with ⟨cause, -, hgen⟩ | ⟨w, path, d₁, hdraft, hsaves⟩
      · rw [hgen]; exact hc
      · obtain ⟨rfl, hpath, -⟩ := Layout.draft_eq_ok hdraft
        exact hsaves.get?_file hl hpath hc (hsp _ (List.mem_cons_self ..))
    rw [← hhome] at hstep ⊢
    exact get?_generateEach hs (noLinks_generate g hl spec) hstep
      (fun q hq => hhome ▸ hsp q (List.mem_cons_of_mem _ hq)) hrest

end Generator

end TypeGen.Project
