import TypeGen.Proofs.Generate.Failing
import TypeGen.Proofs.Generate.Keeping
import TypeGen.Proofs.Layout.Respelling
import TypeGen.Proofs.Store.Resaving
import TypeGen.Proofs.Store.Respelling

/-!
Generating a spec by paths that are spelled in two ways. The same two files are written, with the
same texts but for the include guard, which shows how the header is spelled; paths that were made
absolute have one guard. Two dots count, so taking a way back makes another path of it.
-/

namespace TypeGen.Project

open TypeGen.Render TypeGen.Spec TypeGen.Store TypeGen.Store.FilePath TypeGen.Text

/-- A path aims at the same place however it is spelled. -/
theorem aim_respelled {p q : FilePath} (h : p.Respells q) (home : Place) :
    q.aim home = p.aim home := by rw [aim, aim, h]

/-! ### Headers -/

namespace Layout

variable {l : Layout} {d : Disk} {p q header header' : FilePath} {stem : String} {k : Kind}

theorem relative_respelled (l : Layout) (hpq : p.Respells q) :
    (l.relative p).Respells (l.relative q) := by
  have hrel : (p.relativeTo? l.root).map components = (q.relativeTo? l.root).map components :=
    relativeTo?_respelled hpq rfl
  rw [Respells, relative, relative]
  cases hp : p.relativeTo? l.root <;> cases hq : q.relativeTo? l.root <;> simp_all [Respells]

/-- The header of a spec has one name however the path of the spec is spelled. -/
theorem IsHeaderOf.of_respells (h : IsHeaderOf l stem k p header) (hpq : p.Respells q)
    (hheader' : l.headerPath? q = some header') : IsHeaderOf l stem k q header' := by
  obtain ⟨k', stem', hne, -, hname, heq⟩ := headerPath?_eq_some hheader'
  have hsame := hname
  rw [← fileName?_congr hpq, h.specName] at hsame
  obtain ⟨rfl, rfl⟩ := Kind.append_suffix_inj (Option.some.inj hsame)
  obtain ⟨first, rest, hof, -⟩ := l.ofString_header h.noSlash h.stem_ne
  obtain ⟨last, name, hlast, hends⟩ := h.ends
  refine ⟨hne, h.noSlash, hname, heq, last, name, ?_, hends⟩
  rw [heq, getLast?_withFileName hname (l.isInner_header h.noSlash h.stem_ne).unrooted (by simp [hof]),
    ← h.getLast?, hlast]

theorem IsHeaderOf.respelled (h : IsHeaderOf l stem k p header) (h' : IsHeaderOf l stem k q header')
    (hpq : p.Respells q) : header.Respells header' := by
  rw [Respells, h.components, h'.components, hpq]

/-- Spellings of one path that were made absolute have headers with one guard. -/
theorem IsHeaderOf.headerGuard_eq {lead lead' inner inner' : List String}
    (h : IsHeaderOf l stem k p header) (h' : IsHeaderOf l stem k q header') (hpq : p.Respells q)
    (hp : p.IsAbsolute lead inner) (hq : q.IsAbsolute lead' inner') (hroot : l.root.rooted = true)
    (hbelow : l.root.components <+: p.components.dropLast) :
    l.headerGuard header = l.headerGuard header' := by
  have hinner := l.isInner_header h.noSlash h.stem_ne
  have hne : (ofString (stem ++ l.headerSuffix)).pieces ≠ [] := by
    obtain ⟨first, rest, hof, -⟩ := l.ofString_header h.noSlash h.stem_ne
    simp [hof]
  obtain ⟨lead₁, hlead₁, heq₁⟩ := hp.withFileName h.specName hinner hne
  obtain ⟨lead₂, hlead₂, heq₂⟩ := hq.withFileName h'.specName hinner hne
  have hb : l.root.components ≠ [] := List.ne_nil_of_mem (rooted_iff.1 hroot)
  have hrel : header.relativeTo? l.root = header'.relativeTo? l.root := by
    rw [h.header_eq, h'.header_eq, heq₁, heq₂, relativeTo?_append_of_idle hlead₁ _ hb,
      relativeTo?_append_of_idle hlead₂ _ hb, hp.inner_eq hq hpq]
  obtain ⟨rel, hsome⟩ : ∃ rel, header.relativeTo? l.root = some rel :=
    exists_relativeTo? (hbelow.trans (h.components ▸ List.prefix_append ..))
  rw [headerGuard, headerGuard, relative, relative, ← hrel, hsome, Option.getD_some, Option.getD_some]

/-! ### Drafts -/

/-- What is written for a spec can be followed, and so can all around its header that is looked for. -/
def HasRoom (l : Layout) (d : Disk) (spec : FilePath) : Prop :=
  ∀ header, l.headerPath? spec = some header →
    isPath header = true ∧ isPath (l.sourcePath d header) = true ∧ (l.IsFlat ∨ SeesSides header)

/-- Drafts of one spec by two spellings of its path. -/
structure Redraft (l : Layout) (d : Disk) (w w' : Draft) : Prop where
  text : w'.text = w.text
  content : w'.content = w.content
  name : w'.name l = w.name l
  header : w.header.SameFile w'.header
  source : (l.sourcePath d w.header).SameFile (l.sourcePath d w'.header)
  /-- The libraries around the headers are the same, on this disk and others. -/
  library : ∀ {e e' : Disk}, SameDirectories e e' →
    (l.library? e w.header).map FilePath.components = (l.library? e' w'.header).map FilePath.components

/-- A spec is read into one draft however its path is spelled, the paths in the draft aside. -/
theorem draft_respelled {w : Draft} (hfile : d.isFile q = true)
    (hpq : p.Respells q) (h : l.draft d p = .ok w) : ∃ w', l.draft d q = .ok w' ∧ w'.text = w.text ∧
      w'.content = w.content ∧ w'.name l = w.name l := by
  obtain ⟨hspec, -, htext, k, hkind, hparse⟩ := draft_eq_ok h
  have hkind' : kindOf? q = some k := by rw [kindOf?, ← fileName?_congr hpq, ← kindOf?, hkind]
  obtain ⟨header', hheader'⟩ := l.exists_headerPath? hkind'
  have hname : w.name l = (l.relative q).slashed := by
    rw [Draft.name, hspec, slashed, slashed, l.relative_respelled hpq]
  have htext' : d.readText? q = some w.text := by
    have hsame : d.locate true p = d.locate true q :=
      locate_congr hpq (endsInName_of_readText? htext) (endsInName_of_isFile hfile)
        ((isPath_of_readText? htext).trans (isPath_of_isFile hfile).symm)
    rw [← htext, Disk.readText?, Disk.readText?, Disk.read, Disk.read, hsame]
  refine ⟨⟨q, header', w.text, w.content⟩, ?_, rfl, rfl, hname.symm⟩
  rw [draft, hkind', hheader', Disk.readText?_eq_some_iff.1 htext']
  simp only [← hname, hparse]

/-- The drafts of a spec below the root by two spellings of its path. -/
theorem exists_redraft {w : Draft} (hl : d.tree.NoLinks) (hfile : d.isFile q = true)
    (hpq : p.Respells q) (hroot : Component.root ∈ p.components.dropLast) (hroom : l.HasRoom d p)
    (hroom' : l.HasRoom d q) (h : l.draft d p = .ok w) (hof : IsHeaderOf l stem k p w.header) :
    ∃ w', l.draft d q = .ok w' ∧ IsHeaderOf l stem k q w'.header ∧ Redraft l d w w' := by
  obtain ⟨w', h', htext, hcontent, hname⟩ := draft_respelled hfile hpq h
  obtain ⟨-, hheader, hread, -⟩ := draft_eq_ok h
  obtain ⟨-, hheader', -, -⟩ := draft_eq_ok h'
  have hof' := hof.of_respells hpq hheader'
  have hheaders := hof.respelled hof' hpq
  obtain ⟨hpath, hsource, hsides⟩ := hroom _ hheader
  obtain ⟨hpath', hsource', hsides'⟩ := hroom' _ hheader'
  have hsees : SeesSides w.header := hsides.elim (hof.seesSides · (isPath_of_readText? hread)) id
  have hsees' : SeesSides w'.header := hsides'.elim (hof'.seesSides · (isPath_of_isFile hfile)) id
  obtain ⟨name, hn, hslash⟩ := hof.exists_fileName?
  have hn' : w'.header.fileName? = some name := (fileName?_congr hheaders).symm.trans hn
  have hrooted : w.header.rooted = true := by
    rw [rooted_iff, hof.components]
    exact List.mem_append_left _ hroot
  have hlibrary : ∀ {e e' : Disk}, SameDirectories e e' → (l.library? e w.header).map components =
      (l.library? e' w'.header).map components := fun hdirs =>
    library?_respelled hdirs hheaders hsees hsees'
  have hsources : (l.sourcePath d w.header).Respells (l.sourcePath d w'.header) :=
    sourcePath_respelled (hlibrary ⟨hl, hl, rfl, .refl _, .refl _⟩) hheaders hn hslash
  exact ⟨w', h', hof', htext, hcontent, hname, ⟨hheaders, hrooted, hpath, hpath', hof.ends, hof'.ends⟩,
    ⟨hsources, rooted_sourcePath hrooted hn hslash, hsource, hsource', endsInName_sourcePath hn hslash,
      endsInName_sourcePath hn' hslash⟩, hlibrary⟩

end Layout

/-! ### Runs -/

/-- What two runs for one spec leave on disks that were equal: the same files, in the same places,
with the same texts but for the guards of the headers. -/
structure Agree (l : Layout) (home : Place) (e e' : Disk) (files files' : Generated) : Prop where
  header : files.header.Respells files'.header
  source : files.source.Respells files'.source
  elsewhere : ∀ place, place ≠ files.header.aim home → e'.tree.get? place = e.tree.get? place
  text : e'.tree.get? (files.header.aim home) = e.tree.get? (files.header.aim home) ∨
    ∃ name m code, e.tree.get? (files.header.aim home) =
        some (.file (.text (headerText name m (l.headerGuard files.header) code))) ∧
      e'.tree.get? (files.header.aim home) =
        some (.file (.text (headerText name m (l.headerGuard files'.header) code)))
  same : l.headerGuard files.header = l.headerGuard files'.header → e' = e

/-- The disks that header and source of one spec are saved on have the same directories. -/
theorem sameDirectories_save {d e e' : Disk} (hl : d.tree.NoLinks) {p q : FilePath}
    (hpq : p.Respells q) {text text' : String} (h : save d p text = (e, .ok ()))
    (h' : save d q text' = (e', .ok ())) : Layout.SameDirectories e e' := by
  obtain ⟨hhome, hl₁, -, hfile⟩ := passes_of_save hl h
  obtain ⟨hhome', hl₂, -, hfile'⟩ := passes_of_save hl h'
  rw [aim_respelled hpq] at hfile'
  have hsame : ∀ place, place ≠ p.aim d.home → e'.tree.get? place = e.tree.get? place :=
    fun place hplace => get?_save_congr hl hl rfl hpq h h' hplace rfl
  refine ⟨hl₁, hl₂, hhome'.trans hhome.symm, fun place hdir => ?_, fun place hdir => ?_⟩
  · rw [hsame place fun h0 => by rw [h0, hfile] at hdir; cases hdir]
    exact hdir
  · rw [← hsame place fun h0 => by rw [h0, hfile'] at hdir; cases hdir]
    exact hdir

/-- What tells of one of the drafts tells of the other. -/
theorem isCurrent_redraft {l : Layout} {d : Disk} {w w' : Draft} (h : l.Redraft d w w') {b : Bool}
    (hc : Generator.isCurrent d w.header (l.sourcePath d w.header) w.metadata = .ok b) :
    Generator.isCurrent d w'.header (l.sourcePath d w'.header) w'.metadata = .ok b := by
  have hm : w'.metadata = w.metadata := by rw [Draft.metadata, Draft.metadata, h.text]
  rw [Generator.isCurrent] at hc ⊢
  rw [hm]
  cases hheader : recorded d w.header with
  | error => rw [hheader] at hc; cases hc
  | ok m =>
    rw [hheader] at hc
    rw [recorded_alike h.header.alike hheader]
    simp only [bind, Except.bind] at hc ⊢
    split at hc
    next htells =>
      rw [if_pos htells]
      cases hsource : recorded d (l.sourcePath d w.header) with
      | error => rw [hsource] at hc; cases hc
      | ok m' => rw [hsource] at hc; rw [recorded_alike h.source.alike hsource]; exact hc
    next htells => rw [if_neg htells]; exact hc

/-- If one of the drafts is written, the other is as well. -/
theorem exists_writes_redraft {g : Generator} {d e : Disk} {w w' : Draft} {files : Generated}
    (h : g.layout.Redraft d w w') (hw : Generator.Writes g d w e (.generated files)) :
    ∃ e' files', Generator.Writes g d w' e' (.generated files') := by
  cases hw with | @both d₁ _ path hs hf hs₂ => ?_
  obtain ⟨d₁', hs', hshape⟩ := save_sameShape (.refl d) h.header (w'.headerText g.layout) hs
  obtain ⟨path', hf'⟩ := g.layout.includePath_of_isFile (isFile_of_save hs')
  obtain ⟨e', hs₂', -⟩ := save_sameShape hshape h.source (w'.sourceText g.layout path') hs₂
  exact ⟨e', _, .both hs' hf' hs₂'⟩

/-- If one of the drafts is written for its spec, so is the other. -/
theorem generate_redraft {g : Generator} {d e : Disk} {p q : FilePath} {w w' : Draft}
    {files : Generated} (hw : g.layout.draft d p = .ok w) (hw' : g.layout.draft d q = .ok w')
    (hredraft : g.layout.Redraft d w w') (h : g.generate d p = (e, .generated files)) :
    ∃ e' files', g.generate d q = (e', .generated files') ∧
      Generator.Writes g d w' e' (.generated files') := by
  rw [Generator.generate_of_draft hw] at h
  split at h
  next => cases h
  next => cases h
  next hstale =>
    have hwrites := Generator.writes_writeDraft g d w
    rw [h] at hwrites
    obtain ⟨e', files', hwrites'⟩ := exists_writes_redraft hredraft hwrites
    have hstale' : (if g.skipUnchanged then
        Generator.isCurrent d w'.header (g.layout.sourcePath d w'.header) w'.metadata
        else .ok false) = .ok false := by
      split at hstale
      next hskip => rw [if_pos hskip]; exact isCurrent_redraft hredraft hstale
      next hskip => rw [if_neg hskip]
    exact ⟨e', files', by rw [Generator.generate_of_draft hw', hstale']; exact hwrites'.eq, hwrites'⟩

/-- A header that was written is there with its text, unless the source went to its place. -/
theorem get?_header_of_writes {g : Generator} {d e : Disk} {w : Draft} {files : Generated}
    (hl : d.tree.NoLinks) (hw : Generator.Writes g d w e (.generated files))
    (hne : files.header.aim d.home ≠ files.source.aim d.home) :
    e.tree.get? (files.header.aim d.home) = some (.file (.text (w.headerText g.layout))) := by
  cases hw with | @both d₁ _ path hs hf hs₂ => ?_
  obtain ⟨hhome₁, hl₁, -, hfile₁⟩ := passes_of_save hl hs
  exact get?_file_of_save_ne hl₁ hs₂ hfile₁ (hhome₁ ▸ hne)

/-- Drafts of one spec by two spellings of its path have headers that differ in nothing but the guard. -/
theorem headerText_redraft {l : Layout} {d : Disk} {w w' : Draft} (h : l.Redraft d w w') :
    w'.headerText l =
      headerText (w.name l) w.metadata (l.headerGuard w'.header) (headerCode w.content) := by
  rw [Draft.headerText, h.name, Draft.metadata, Draft.metadata, h.text, h.content]

/-- One source is written for both drafts, and all else but the header is left alike. -/
theorem get?_of_writes_redraft {g : Generator} {d e e' : Disk} {w w' : Draft} {files files' : Generated}
    (hl : d.tree.NoLinks) (h : g.layout.Redraft d w w')
    (hw : Generator.Writes g d w e (.generated files))
    (hw' : Generator.Writes g d w' e' (.generated files')) {place : Place}
    (hplace : place = files.source.aim d.home ∨ place ≠ files.header.aim d.home) :
    e'.tree.get? place = e.tree.get? place := by
  have hheaders := h.header.respells
  have hsources := h.source.respells
  cases hw with | @both d₁ _ path hs hf hs₂ => ?_
  cases hw' with | @both d₁' _ path' hs' hf' hs₂' => ?_
  have hpath : path.slashed = path'.slashed :=
    Layout.includePath_respelled (h.library (sameDirectories_save hl hheaders hs hs')) hheaders hf hf'
  have hsourceText : w'.sourceText g.layout path' = w.sourceText g.layout path := by
    rw [Draft.sourceText, Draft.sourceText, h.name, Draft.metadata, Draft.metadata, h.text, h.content,
      hpath]
  rw [hsourceText] at hs₂'
  obtain ⟨hhome₁, hl₁, -, -⟩ := passes_of_save hl hs
  obtain ⟨hhome₁', hl₁', -, -⟩ := passes_of_save hl hs'
  obtain ⟨-, -, -, hsource⟩ := passes_of_save hl₁ hs₂
  obtain ⟨-, -, -, hsource'⟩ := passes_of_save hl₁' hs₂'
  rw [hhome₁] at hsource
  rw [hhome₁', aim_respelled hsources] at hsource'
  by_cases hat : place = (g.layout.sourcePath d w.header).aim d.home
  · rw [hat, hsource, hsource']
  · have hfirst : d₁'.tree.get? place = d₁.tree.get? place :=
      get?_save_congr hl hl rfl hheaders hs hs' (hplace.resolve_left hat) rfl
    exact get?_save_congr hl₁ hl₁' (hhome₁'.trans hhome₁.symm) hsources hs₂ hs₂' (hhome₁ ▸ hat) hfirst

/-- Two runs by drafts of one spec agree in all but the guard of the header. -/
theorem agree_of_writes {g : Generator} {d e e' : Disk} {w w' : Draft} {files files' : Generated}
    (hl : d.tree.NoLinks) (h : g.layout.Redraft d w w')
    (hw : Generator.Writes g d w e (.generated files))
    (hw' : Generator.Writes g d w' e' (.generated files')) :
    Agree g.layout d.home e e' files files' := by
  have hsame : ∀ {place}, place = files.source.aim d.home ∨ place ≠ files.header.aim d.home →
      e'.tree.get? place = e.tree.get? place := get?_of_writes_redraft hl h hw hw'
  have hheader := get?_header_of_writes hl hw
  have hheader' := get?_header_of_writes hl hw'
  have hhome : e'.home = e.home := (hw'.home hl).trans (hw.home hl).symm
  obtain ⟨hheaders, hsources, hdraft, hdraft'⟩ : files.header.Respells files'.header ∧
      files.source.Respells files'.source ∧ files.header = w.header ∧ files'.header = w'.header := by
    cases hw with | both => ?_
    cases hw' with | both => ?_
    exact ⟨h.header.respells, h.source.respells, rfl, rfl⟩
  rw [aim_respelled hheaders, aim_respelled hsources, headerText_redraft h, ← hdraft'] at hheader'
  rw [Draft.headerText, ← hdraft] at hheader
  have htexts : e'.tree.get? (files.header.aim d.home) = e.tree.get? (files.header.aim d.home) ∨
      ∃ name m code, e.tree.get? (files.header.aim d.home) =
          some (.file (.text (headerText name m (g.layout.headerGuard files.header) code))) ∧
        e'.tree.get? (files.header.aim d.home) =
          some (.file (.text (headerText name m (g.layout.headerGuard files'.header) code))) := by
    by_cases hat : files.header.aim d.home = files.source.aim d.home
    · exact .inl (hsame (.inl hat))
    · exact .inr ⟨_, _, _, hheader hat, hheader' hat⟩
  refine ⟨hheaders, hsources, fun _ hplace => hsame (.inr hplace), htexts, fun hguard => ?_⟩
  refine Disk.eq_of_get? hhome fun place => ?_
  by_cases hat : place = files.header.aim d.home
  · rw [hat]
    rcases htexts with hsameText | ⟨name, m, code, htext, htext'⟩
    · exact hsameText
    · rw [htext, htext', hguard]
  · exact hsame (.inr hat)

/-- A spec below the root that is generated by one spelling of its path is generated alike by all
others, the guard of the header aside; and wholly alike by paths that were made absolute. -/
theorem generate_respelled {g : Generator} {d e : Disk} {p q : FilePath} {files : Generated}
    (hl : d.tree.NoLinks) (hp : p.IsWritten) (hfile : d.isFile q = true)
    (hroot : g.layout.root.rooted = true)
    (hbelow : g.layout.root.components <+: p.components.dropLast) (hpq : p.Respells q)
    (hroom : g.layout.HasRoom d p) (hroom' : g.layout.HasRoom d q)
    (h : g.generate d p = (e, .generated files)) :
    ∃ e' files', g.generate d q = (e', .generated files') ∧
      Agree g.layout d.home e e' files files' ∧
      ∀ cwd cwd' typed typed', cwd.IsWorkingDirectory → cwd'.IsWorkingDirectory →
        p = absolute cwd typed → q = absolute cwd' typed' → e' = e := by
  obtain ⟨w, hw, hwrites⟩ := Generator.generate_generated h
  obtain ⟨-, hheader, hread, -⟩ := Layout.draft_eq_ok hw
  have hends : EndsInName w.header.pieces := by
    cases hwrites with | both hs => exact endsInName_of_save hs
  obtain ⟨stem, k, hof⟩ := Layout.exists_isHeaderOf hp hheader hends
  obtain ⟨w', hw', hof', hredraft⟩ := Layout.exists_redraft hl hfile hpq
    (hbelow.subset (rooted_iff.1 hroot)) hroom hroom' hw hof
  obtain ⟨e', files', hgen, hwrites'⟩ := generate_redraft hw hw' hredraft h
  have hagree := agree_of_writes hl hredraft hwrites hwrites'
  refine ⟨e', files', hgen, hagree, fun cwd cwd' typed typed' hcwd hcwd' htyped htyped' => ?_⟩
  have hendsp := endsInName_of_readText? hread
  have hendsq := endsInName_of_isFile hfile
  rw [htyped] at hendsp
  rw [htyped'] at hendsq
  obtain ⟨lead, inner, habs⟩ := isAbsolute_absolute hcwd hendsp
  obtain ⟨lead', inner', habs'⟩ := isAbsolute_absolute hcwd' hendsq
  rw [← htyped] at habs
  rw [← htyped'] at habs'
  cases hwrites with | both => ?_
  cases hwrites' with | both => ?_
  exact hagree.same (hof.headerGuard_eq hof' hpq habs habs' hroot hbelow)

/-- A spec at the top of a project, and one in a directory two levels below. -/
def twoLevels : Disk := furnish []
  [("r/foo.struct.toml", emptyStruct), ("r/sub/in/foo.struct.toml", emptyStruct)]

/-- The sample generator with an absolute root. -/
def absoluteGenerator : Generator := ⟨⟨ofString "/r", Config.ofName "p"⟩, none, false⟩

/-- A second slash at the start is kept when a path is made absolute, and shows in no file. -/
theorem generate_respelled_doubled :
    let p := absolute (ofString "/r") (ofString "./foo.struct.toml")
    let q := absolute (ofString "/r/sub") (ofString "//r/./foo.struct.toml")
    q ≠ p ∧ ∃ files files', absoluteGenerator.generate twoLevels q =
      ((absoluteGenerator.generate twoLevels p).1, .generated files') ∧
        (absoluteGenerator.generate twoLevels p).2 = .generated files := by
  intro p q
  have hp : (absoluteGenerator.generate twoLevels p).2 =
      .generated ⟨ofString "/r/foo.struct.toml", ofString "/r/foo.dtg.h", ofString "/r/foo.dtg.cc"⟩ := by
    decide +kernel
  have hflat : absoluteGenerator.layout.IsFlat := by unfold Layout.IsFlat; decide
  have hroom : absoluteGenerator.layout.HasRoom twoLevels p := fun header hheader => by
    obtain rfl : ofString "/r/foo.dtg.h" = header :=
      Option.some.inj (Eq.trans (by decide +kernel) hheader)
    exact ⟨by decide, by decide +kernel, .inl hflat⟩
  have hroom' : absoluteGenerator.layout.HasRoom twoLevels q := fun header hheader => by
    obtain rfl : ofString "//r/foo.dtg.h" = header :=
      Option.some.inj (Eq.trans (by decide +kernel) hheader)
    exact ⟨by decide, by decide +kernel, .inl hflat⟩
  have hl : twoLevels.tree.NoLinks := noLinks_furnish _ _
  obtain ⟨e', files', hgen, -, hsame⟩ := generate_respelled hl (by unfold IsWritten; decide)
    (by decide +kernel) rfl (by decide) (by unfold Respells; decide) hroom hroom' (eq_mk_of_snd hp)
  refine ⟨by decide, _, files', ?_, hp⟩
  rw [hgen, hsame _ _ _ _ ⟨rfl, by decide⟩ ⟨rfl, by decide⟩ rfl rfl]

/-- Two paths of one spec by which headers with other texts are written to the same place. -/
def Generator.TellsApart (g : Generator) (d : Disk) (p q : FilePath) : Prop :=
  d.isFile p = true ∧ q.aim d.home = p.aim d.home ∧ ∃ e e' files files',
    g.generate d p = (e, .generated files) ∧ g.generate d q = (e', .generated files') ∧
      files'.header.aim d.home = files.header.aim d.home ∧
      e'.tree.get? (files.header.aim d.home) ≠ e.tree.get? (files.header.aim d.home)

/-- A header tells of the way back that was typed in a directory below, and of a dot in a path that
was not made absolute before. -/
theorem generate_tells_apart : twoLevels.tree.NoLinks ∧
    absoluteGenerator.TellsApart twoLevels (absolute (ofString "/r") (ofString "foo.struct.toml"))
      (absolute (ofString "/r/sub") (ofString "../foo.struct.toml")) ∧
    absoluteGenerator.TellsApart twoLevels (ofString "/r/sub/in/foo.struct.toml")
      (ofString "/r/sub/./in/foo.struct.toml") := by
  have hp : (absoluteGenerator.generate twoLevels
      (absolute (ofString "/r") (ofString "foo.struct.toml"))).2 =
      .generated ⟨ofString "/r/foo.struct.toml", ofString "/r/foo.dtg.h", ofString "/r/foo.dtg.cc"⟩ := by
    decide +kernel
  have hback : (absoluteGenerator.generate twoLevels
      (absolute (ofString "/r/sub") (ofString "../foo.struct.toml"))).2 =
      .generated ⟨ofString "/r/sub/../foo.struct.toml", ofString "/r/sub/../foo.dtg.h",
        ofString "/r/sub/../foo.dtg.cc"⟩ := by
    decide +kernel
  have hq : (absoluteGenerator.generate twoLevels (ofString "/r/sub/in/foo.struct.toml")).2 =
      .generated ⟨ofString "/r/sub/in/foo.struct.toml", ofString "/r/sub/in/foo.dtg.h",
        ofString "/r/sub/in/foo.dtg.cc"⟩ := by
    decide +kernel
  have hdot : (absoluteGenerator.generate twoLevels (ofString "/r/sub/./in/foo.struct.toml")).2 =
      .generated ⟨ofString "/r/sub/./in/foo.struct.toml", ofString "/r/sub/./in/foo.dtg.h",
        ofString "/r/sub/./in/foo.dtg.cc"⟩ := by
    decide +kernel
  exact ⟨noLinks_furnish _ _,
    ⟨by decide +kernel, by decide +kernel, _, _, _, _, eq_mk_of_snd hp, eq_mk_of_snd hback,
      by decide +kernel, by decide +kernel⟩,
    ⟨by decide +kernel, by decide +kernel, _, _, _, _, eq_mk_of_snd hq, eq_mk_of_snd hdot,
      by decide +kernel, by decide +kernel⟩⟩

end TypeGen.Project
