import TypeGen.Proofs.Generate.Repeating
import TypeGen.Proofs.Generate.Skipping

/-!
Specs with a new text. Generating a spec leaves it where it was read and its library what it was, and
both files tell of the text that it had. So whatever text it gets afterwards, it is skipped exactly
when that has the same hash.
-/

namespace TypeGen.Store.Disk

open FilePath

/-! ### Writing over files -/

/-- One file has another text, and all else is as it was. -/
structure Rewrites (d e : Disk) (p : FilePath) (text : String) : Prop where
  written : d.write? p (.text text) = some e
  home : e.home = d.home
  get? : ∀ place, e.tree.get? place =
    if d.filePlace? p = some place then some (.file (.text text)) else d.tree.get? place

theorem exists_rewrites {d : Disk} {p : FilePath} {old : String} (h : d.readText? p = some old)
    (text : String) : ∃ e, d.Rewrites e p text := by
  obtain ⟨place, hplace, -⟩ := readText?_eq_some.1 h
  obtain ⟨e, hwrite, hhome, hget⟩ := d.exists_write? hplace (.text text)
  refine ⟨e, hwrite, hhome, fun q => ?_⟩
  rw [hget q, hplace]
  simp only [Option.some.injEq, eq_comm]

namespace Rewrites

variable {d e : Disk} {p q : FilePath} {old text s : String}

theorem saved (h : d.Rewrites e p text) (hp : d.readText? p = some old) :
    ∃ place, d.filePlace? p = some place ∧ d.Saved e place text := by
  obtain ⟨place, hplace, hold⟩ := readText?_eq_some.1 hp
  refine ⟨place, hplace, h.home, ?_, by simp [hold], fun q hq => .inl ?_⟩
  · rw [h.get?, if_pos hplace]
  · rw [h.get?, if_neg]
    intro h0
    exact hq (Option.some.inj (h0.symm.trans hplace))

theorem noLinks (h : d.Rewrites e p text) (hl : d.tree.NoLinks) (hp : d.readText? p = some old) :
    e.tree.NoLinks := by
  obtain ⟨_, -, hsaved⟩ := h.saved hp
  exact hsaved.noLinks hl

theorem readText? (h : d.Rewrites e p text) (hl : d.tree.NoLinks) (hp : d.readText? p = some old) :
    e.readText? p = some text := by
  obtain ⟨place, hplace, hsaved⟩ := h.saved hp
  obtain ⟨place', hplace', hold⟩ := readText?_eq_some.1 hp
  obtain rfl : place = place' := Option.some.inj (hplace.symm.trans hplace')
  exact readText?_eq_some.2
    ⟨place, hsaved.keeps.filePlace? hl (hsaved.noLinks hl) hplace hold, hsaved.here⟩

/-- Files in other places keep their texts. -/
theorem readText?_of_ne (h : d.Rewrites e p text) (hl : d.tree.NoLinks)
    (hp : d.readText? p = some old) (hq : d.readText? q = some s) (hne : p.aim d.home ≠ q.aim d.home) :
    e.readText? q = some s := by
  obtain ⟨place, hplace, hsaved⟩ := h.saved hp
  refine hsaved.readText? hl hq fun h0 => hne ?_
  rw [aim_of_filePlace? hl hplace, aim_of_filePlace? hl h0]

/-- No directory comes to be, and none goes. -/
theorem library?_eq (h : d.Rewrites e p text) (hl : d.tree.NoLinks) (hp : d.readText? p = some old)
    (l : Project.Layout) : l.library? d q = l.library? e q := by
  obtain ⟨_, -, hsaved⟩ := h.saved hp
  refine Project.Layout.library?_of_same hl (hsaved.noLinks hl) h.home hsaved.grows fun place hplace => ?_
  rw [h.get?] at hplace
  split at hplace
  · cases hplace
  · exact hplace

end Rewrites

end TypeGen.Store.Disk

namespace TypeGen.Project

open TypeGen.Spec TypeGen.Store TypeGen.Store.FilePath TypeGen.Text

/-- What is read at a path once a file has been saved is what was there, or the text of that file. -/
theorem readText?_of_save_or {d d' : Disk} (hl : d.tree.NoLinks) {p q : FilePath} {text s : String}
    (h : save d p text = (d', .ok ())) (hq : d.readText? q = some s) :
    d'.readText? q = some s ∨ d'.readText? q = some text := by
  obtain ⟨place, -, hsaved⟩ := saved_of_save hl h
  obtain ⟨here, hhere, hget⟩ := Disk.readText?_eq_some.1 hq
  by_cases hsame : here = place
  · rw [hsame] at hhere hget
    exact .inr (Disk.readText?_eq_some.2
      ⟨place, hsaved.keeps.filePlace? hl (hsaved.noLinks hl) hhere hget, hsaved.here⟩)
  · exact .inl (hsaved.readText? hl hq fun h0 => hsame (Option.some.inj (hhere.symm.trans h0)))

/-! ### A spec and its own files -/

namespace Layout

variable {l : Layout}

theorem headerSuffix_ne (l : Layout) (k : Kind) : l.headerSuffix ≠ k.suffix := by
  intro h
  have hchars := congrArg (fun s : String => s.toList[1]?) h
  have hd : l.headerSuffix.toList[1]? = some 'd' := by
    rw [headerSuffix, String.toList_append]
    rfl
  simp only [hd] at hchars
  revert hchars
  cases k <;> decide

/-- A spec is not in the way of its own files. -/
theorem spares_self (hl : l.IsFlat) {spec : FilePath} (hw : spec.IsWritten) (home : Place) :
    l.Spares home spec spec := by
  intro header hheader hends
  obtain ⟨stem, k, h⟩ := exists_isHeaderOf hw hheader hends
  have hkind : kindOf? spec = some k := kindOf?_eq_some.2 ⟨stem, h.stem_ne, h.specName⟩
  have hname : header.fileName? = some (stem ++ l.headerSuffix) := by
    rw [fileName?_eq_some, h.components_of_flat hl, List.getLast?_concat]
  refine ⟨aim_ne_of_fileName? h.specName hname fun h0 => ?_, aim_spec_ne_source hkind h home⟩
  exact l.headerSuffix_ne k ((String.append_right_inj _).1 h0).symm

end Layout

namespace Generator

/-- The same generator, but it leaves alone what tells of the spec as it is. -/
def lazy (g : Generator) : Generator := { g with skipUnchanged := true }

variable {g : Generator} {d d' : Disk} {w : Draft} {files : Generated}

/-- Both files are there and have texts of the draft, even if they are one file. -/
theorem Writes.gives (h : Writes g d w d' (.generated files)) (hl : d.tree.NoLinks) :
    files = ⟨w.spec, w.header, g.layout.sourcePath d w.header⟩ ∧
      ∀ p, p = files.header ∨ p = files.source → ∃ s, d'.readText? p = some s ∧ w.Gives g.layout s := by
  cases h with
  | @both _ _ path header _ source =>
    refine ⟨rfl, ?_⟩
    rintro p (rfl | rfl)
    · rcases readText?_of_save_or (noLinks_save hl header) source (readText?_of_save header) with
        hread | hread
      · exact ⟨_, hread, .header⟩
      · exact ⟨_, hread, .source path⟩
    · exact ⟨_, readText?_of_save source, .source path⟩

end Generator

theorem isCurrent_of_recorded {d : Disk} {header source : FilePath} {m : Metadata} (m' : Metadata)
    (hh : recorded d header = .ok (some m)) (hs : recorded d source = .ok (some m)) :
    Generator.isCurrent d header source m' = .ok (decide (m = m')) := by
  rw [Generator.isCurrent, hh]
  by_cases hm : m = m'
  · simp [bind, Except.bind, pure, Except.pure, hs, hm]
  · simp [bind, Except.bind, pure, Except.pure, hm]

/-- A spec is skipped if both files have the metadata of its text, and not if both have other
metadata. -/
theorem generate_lazy_of_recorded {g : Generator} {d : Disk} {spec header : FilePath} {text : String}
    {m : Metadata} (hheader : g.layout.headerPath? spec = some header)
    (hread : d.readText? spec = some text) (hh : recorded d header = .ok (some m))
    (hs : recorded d (g.layout.sourcePath d header) = .ok (some m)) :
    ((g.lazy.generate d spec).2 = .unchanged ↔ m = Metadata.ofSpec text) ∧
      ((g.lazy.generate d spec).2 = .unchanged → (g.lazy.generate d spec).1 = d) := by
  have hcurrent := isCurrent_of_recorded (Metadata.ofSpec text) hh hs
  by_cases hm : m = Metadata.ofSpec text
  · have hskip : g.lazy.generate d spec = (d, .unchanged) :=
      generate_of_isCurrent hheader hread (by rw [hcurrent, decide_eq_true hm])
    simp [hskip, hm]
  · have hne : (g.lazy.generate d spec).2 ≠ .unchanged := by
      intro h0
      rcases g.lazy.generate_eq_eager_or d spec with heq |
        ⟨header', text', hheader', hread', ⟨htrue, -⟩ | ⟨fault, -, hgen⟩⟩
      · rw [heq] at h0
        exact g.lazy.generate_eager_ne_unchanged d spec h0
      · obtain rfl : header = header' := Option.some.inj (hheader.symm.trans hheader')
        obtain rfl : text = text' := Option.some.inj (hread.symm.trans hread')
        exact hm (of_decide_eq_true (Except.ok.inj (hcurrent.symm.trans htrue)))
      · rw [hgen] at h0
        cases h0
    simp [hne, hm]

/-- When a spec has been generated, both of its files tell of the text that it had. If only the spec
is changed then, it is skipped exactly when its new text has the same hash, and skipping leaves
everything as it is. -/
theorem unchanged_iff_contentHash {g : Generator} {d d' : Disk} {spec : FilePath}
    {files : Generated} (hl : d.tree.NoLinks) (hflat : g.layout.IsFlat) (hw : spec.IsWritten)
    (hup : .parent ∉ spec.components) (hline : '\n' ∉ (g.layout.relative spec).slashed.toList)
    (h : g.generate d spec = (d', .generated files)) : ∃ text, d.readText? spec = some text ∧
      (∀ p, p = files.header ∨ p = files.source → ∃ s, d'.readText? p = some s ∧
        Metadata.parse? s = some (Metadata.ofSpec text)) ∧
      ∀ text', ∃ e, d'.Rewrites e spec text' ∧
        ((g.lazy.generate e spec).2 = .unchanged ↔
          Digest.contentHash text' = Digest.contentHash text) ∧
        ((g.lazy.generate e spec).2 = .unchanged → (g.lazy.generate e spec).1 = e) := by
  obtain ⟨w, hdraft, hwrites⟩ := Generator.generate_generated h
  obtain ⟨rfl, hpath, hread, -⟩ := Layout.draft_eq_ok hdraft
  obtain ⟨rfl, hgives⟩ := hwrites.gives hl
  have hparse : ∀ p, p = w.header ∨ p = g.layout.sourcePath d w.header →
      ∃ s, d'.readText? p = some s ∧ Metadata.parse? s = some w.metadata := fun p hp => by
    obtain ⟨s, hs, hg⟩ := hgives p hp
    exact ⟨s, hs, hg.parse? hline⟩
  refine ⟨w.text, hread, hparse, fun text' => ?_⟩
  have hl' := hwrites.noLinks hl
  have hspares := g.layout.spares_self hflat hw d.home
  have hread' := hwrites.readText? hl hpath hread hspares
  obtain ⟨_, hheader, -⟩ := hparse _ (.inl rfl)
  obtain ⟨hapart, hapart'⟩ := hspares _ hpath (endsInName_of_readText? hheader)
  obtain ⟨e, he⟩ := Disk.exists_rewrites hread' text'
  have hrecorded : ∀ p, p = w.header ∨ p = g.layout.sourcePath d w.header →
      recorded e p = .ok (some w.metadata) := fun p hp => by
    obtain ⟨s, hs, hm⟩ := hparse p hp
    have hne : w.spec.aim d'.home ≠ p.aim d'.home := by
      rw [hwrites.home hl]
      rcases hp with rfl | rfl
      · exact hapart
      · exact hapart' d
    rw [recorded_of_readText? (he.readText?_of_ne hl' hread' hs hne), hm]
  have hlib := (Generator.library?_generated hl hflat hw hup h).trans (he.library?_eq hl' hread' _)
  have hsource := Layout.sourcePath_congr hlib
  refine ⟨e, he, ?_⟩
  have hlazy := generate_lazy_of_recorded hpath (he.readText? hl' hread') (hrecorded _ (.inl rfl))
    (hsource ▸ hrecorded _ (.inr rfl))
  refine ⟨hlazy.1.trans ?_, hlazy.2⟩
  rw [Draft.metadata, Metadata.ofSpec, Metadata.ofSpec, Metadata.mk.injEq, eq_comm]

/-- The docstring of this struct looks like the comment that tells of a spec. -/
def feigningStruct : String :=
  "name = \"A\"\ndocstring = \"/* dtgen-data\\n*/\"\nfeatures = []\nfields = []\n"

def ofFeigning : FilePath := FilePath.ofString "r/lib/include/x/foo.struct.toml"

/-- A library that has no directory for the source yet. -/
def feigningLibrary : Disk :=
  furnish ["r/lib/include/x", "r/lib/src"] [("r/lib/include/x/foo.struct.toml", feigningStruct)]

/-- The library once its struct has been generated. -/
def feigningGenerated : Disk := (sampleGenerator.generate feigningLibrary ofFeigning).1

theorem unchanged_iff_contentHash_of_feigning :
    (∃ s, feigningGenerated.readText? (FilePath.ofString "r/lib/src/x/foo.dtg.cc") = some s ∧
      Metadata.parse? s = some (Metadata.ofSpec feigningStruct)) ∧
    (∃ e, feigningGenerated.Rewrites e ofFeigning feigningStruct ∧
      (sampleGenerator.lazy.generate e ofFeigning).2 = .unchanged) ∧
    ∃ e, feigningGenerated.Rewrites e ofFeigning emptyStruct ∧
      (sampleGenerator.lazy.generate e ofFeigning).2 ≠ .unchanged := by
  have hgen : sampleGenerator.generate feigningLibrary ofFeigning = (feigningGenerated, .generated
      ⟨ofFeigning, FilePath.ofString "r/lib/include/x/foo.dtg.h",
        FilePath.ofString "r/lib/src/x/foo.dtg.cc"⟩) := eq_mk_of_snd (by decide +kernel)
  have hread : feigningLibrary.readText? ofFeigning = some feigningStruct := by decide +kernel
  have hhash : Digest.contentHash emptyStruct ≠ Digest.contentHash feigningStruct := by decide +kernel
  have hl : feigningLibrary.tree.NoLinks := noLinks_furnish _ _
  obtain ⟨text, htext, htells, hchanged⟩ := unchanged_iff_contentHash hl isFlat_sample
    (FilePath.isWritten_ofString _) (by decide) (by decide +kernel) hgen
  obtain rfl : feigningStruct = text := Option.some.inj (hread.symm.trans htext)
  obtain ⟨e, he, hsame, -⟩ := hchanged feigningStruct
  obtain ⟨e', he', hother, -⟩ := hchanged emptyStruct
  exact ⟨htells _ (.inr rfl), ⟨e, he, hsame.2 rfl⟩, e', he', mt hother.1 hhash⟩

end TypeGen.Project
