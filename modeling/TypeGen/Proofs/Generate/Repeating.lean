import TypeGen.Proofs.Generate.Growing
import TypeGen.Proofs.Generate.Sample
import TypeGen.Proofs.Store.Resaving

/-!
Running again. Every spec has the library at its turn that it has when the run is over, so a second
run writes the same texts to the same files, in the same order, and leaves the disk as it is. Headers
that are named like specs are met by the second run only; they are no specs, and nothing comes of
them.
-/

namespace TypeGen.Store.Disk

open FilePath

variable {c c' e f : Disk} {p : FilePath}

/-- A disk in the course of a second run: every file is as it was at that point of the first run, or
as the first run left it. -/
structure Between (c f e : Disk) : Prop where
  home : e.home = f.home
  get? : ∀ place, e.tree.get? place = f.tree.get? place ∨
    ∃ t, c.tree.get? place = some (.file t) ∧ e.tree.get? place = some (.file t)

namespace Between

theorem refl (c f : Disk) : Between c f f := ⟨rfl, fun _ => .inl rfl⟩

/-- At the end of the first run there is nothing left to differ. -/
theorem eq (h : Between f f e) : e = f := eq_of_get? h.home fun place => by
  rcases h.get? place with hsame | ⟨t, hf, he⟩
  · exact hsame
  · rw [he, hf]

theorem noLinks (h : Between c f e) (hf : f.tree.NoLinks) : e.tree.NoLinks := fun place target => by
  rcases h.get? place with hsame | ⟨t, -, he⟩
  · rw [hsame]; exact hf place target
  · rw [he]; simp

theorem keeps (h : Between c f e) (hk : c.Keeps f) : f.Keeps e where
  home := h.home
  grows place hplace := by
    rcases h.get? place with hsame | ⟨t, hc, -⟩
    · exact hsame.trans hplace
    · obtain ⟨t', hf⟩ := hk.isFile place t hc
      rw [hplace] at hf; cases hf
  isFile place t ht := by
    rcases h.get? place with hsame | ⟨t', -, he⟩
    · exact ⟨t, hsame.trans ht⟩
    · exact ⟨t', he⟩

theorem grows (h : Between c f e) : e.tree.Grows f.tree := fun place hplace => by
  rcases h.get? place with hsame | ⟨t, -, he⟩
  · exact hsame.symm.trans hplace
  · rw [hplace] at he; cases he

end Between

end TypeGen.Store.Disk

namespace TypeGen.Project

open TypeGen.Spec TypeGen.Store TypeGen.Store.FilePath

/-! ### Saving again -/

/-- What the first run saves can be saved again, and goes to the same place. -/
theorem between_save {c c' e f : Disk} (hc : c.tree.NoLinks) (hf : f.tree.NoLinks) {p : FilePath}
    {text : String} (hs : save c p text = (c', .ok ())) (hk : c'.Keeps f) (h : c.Between f e) :
    ∃ e', save e p text = (e', .ok ()) ∧ c'.Between f e' := by
  obtain ⟨place, hplace, hsaved⟩ := saved_of_save hc hs
  have he := h.noLinks hf
  have hkeeps := hk.trans (h.keeps (hsaved.keeps.trans hk))
  obtain ⟨e', hsave, hhome, hget⟩ :=
    exists_save he (hkeeps.filePlace? (hsaved.noLinks hc) he hplace hsaved.here) text
  refine ⟨e', hsave, hhome.trans h.home, fun q => ?_⟩
  rw [hget]
  split
  next hq => exact .inr ⟨_, hq ▸ hsaved.here, rfl⟩
  next hq =>
    rcases h.get? q with hsame | ⟨t, hct, het⟩
    · exact .inl hsame
    · exact .inr ⟨t, hsaved.get?_of_ne hq hct, het⟩

namespace Layout

variable {l : Layout} {c d e f : Disk} {p : FilePath}

theorem draft_of_read (h : e.read p = d.read p) : l.draft e p = l.draft d p := by
  rw [draft, draft, h]

end Layout

/-- What is saved for a draft is saved again, with the same source and the same include path. -/
theorem Saves.again {l : Layout} {c c₁ c' e f : Disk} {w : Draft} {path : FilePath}
    (h : Saves l c w path c₁ c') (hc : c.tree.NoLinks) (hf : f.tree.NoLinks) (hk : c'.Keeps f)
    (hb : c.Between f e) (hlib : l.library? c w.header = l.library? f w.header) :
    ∃ e₁ e', Saves l e w path e₁ e' ∧ c'.Between f e' ∧
      l.sourcePath e w.header = l.sourcePath c w.header := by
  have hc₁ := noLinks_save hc h.header
  obtain ⟨_, -, hheader⟩ := saved_of_save hc h.header
  obtain ⟨_, -, hsource⟩ := saved_of_save hc₁ h.source
  have hk₁ := hsource.keeps.trans hk
  have hlibrary : ∀ {x y : Disk}, x.Keeps f → x.Between f y →
      l.library? f w.header = l.library? y w.header := fun hxf hxy =>
    Layout.library?_of_same hf (hxy.noLinks hf) hxy.home (hxy.keeps hxf).grows hxy.grows
  have hbefore := hlib.trans (hlibrary (hheader.keeps.trans hk₁) hb)
  obtain ⟨e₁, hsave₁, hb₁⟩ := between_save hc hf h.header hk₁ hb
  have hlib₁ : l.library? c₁ w.header = l.library? f w.header :=
    Layout.library?_between hc hc₁ (extends_save hc h.header) (extends_of_keeps hc₁ hf hk₁) hlib
  obtain ⟨path', hpath'⟩ := l.includePath_of_isFile (isFile_of_save hsave₁)
  obtain rfl := Layout.includePath_inj (hlib₁.trans (hlibrary hk₁ hb₁)) h.found hpath'
  obtain ⟨e', hsave, hb'⟩ := between_save hc₁ hf h.source hk hb₁
  rw [Layout.sourcePath_congr hbefore] at hsave
  exact ⟨e₁, e', ⟨hsave₁, hpath', hsave⟩, hb', (Layout.sourcePath_congr hbefore).symm⟩

/-! ### Specs again -/

/-- Specs in the order of a walk, none of which any output of theirs goes to. -/
structure Layout.Orderly (l : Layout) (d : Disk) (specs : List FilePath) : Prop where
  onWalk : ∀ p ∈ specs, l.OnWalk d p
  isFile : ∀ p ∈ specs, ∃ c, d.tree.get? (p.aim d.home) = some (.file c)
  ordered : specs.Pairwise fun p q => p.aim d.home < q.aim d.home
  spared : ∀ p ∈ specs, ∀ q ∈ specs, l.Spares d.home p q

namespace Layout.Orderly

variable {l : Layout} {d e : Disk} {spec : FilePath} {specs : List FilePath}

theorem tail (h : l.Orderly d (spec :: specs)) : l.Orderly d specs where
  onWalk p hp := h.onWalk p (List.mem_cons_of_mem _ hp)
  isFile p hp := h.isFile p (List.mem_cons_of_mem _ hp)
  ordered := (List.pairwise_cons.1 h.ordered).2
  spared p hp q hq := h.spared p (List.mem_cons_of_mem _ hp) q (List.mem_cons_of_mem _ hq)

theorem keeps (h : l.Orderly d specs) (hk : d.Keeps e) : l.Orderly e specs where
  onWalk p hp := (h.onWalk p hp).keeps hk
  isFile p hp := by
    obtain ⟨c, hc⟩ := h.isFile p hp
    rw [hk.home]
    exact hk.isFile _ c hc
  ordered := by rw [hk.home]; exact h.ordered
  spared := by rw [hk.home]; exact h.spared

/-- No spec is ahead of the first one. -/
theorem not_lt (h : l.Orderly d (spec :: specs)) : ∀ q ∈ spec :: specs,
    ¬ q.aim d.home < spec.aim d.home := fun q hq hlt => by
  rcases List.mem_cons.1 hq with rfl | hq
  · exact Std.lt_irrefl hlt
  · exact Std.lt_irrefl (Std.lt_trans hlt ((List.pairwise_cons.1 h.ordered).1 q hq))

end Layout.Orderly

namespace Generator

variable {g : Generator} {c e f : Disk} {q : FilePath}

/-- What comes of a spec comes of it again. -/
theorem generate_again (hs : g.skipUnchanged = false) (hc : c.tree.NoLinks) (hf : f.tree.NoLinks)
    (ha : (g.generate c q).2.isAborted = false) (hk : (g.generate c q).1.Keeps f)
    (hb : c.Between f e) (hread : e.read q = c.read q)
    (hlib : ∀ header, g.layout.headerPath? q = some header → EndsInName header.pieces →
      g.layout.library? c header = g.layout.library? f header) :
    ∃ e', g.generate e q = (e', (g.generate c q).2) ∧ (g.generate c q).1.Between f e' := by
  have hdraft := g.layout.draft_of_read hread
  rcases generate_cases_of_ok hs ha with ⟨cause, herror, hgen⟩ | ⟨w, path, c₁, hw, hsaves⟩
  · rw [hgen]
    exact ⟨e, generate_of_draft_error hs (hdraft.trans herror), hb⟩
  · obtain ⟨rfl, hpath, -⟩ := Layout.draft_eq_ok hw
    obtain ⟨e₁, e', hagain, hb', hsource⟩ := hsaves.again hc hf hk hb
      (hlib _ hpath (endsInName_of_save hsaves.header))
    refine ⟨e', ?_, hb'⟩
    have hfirst := (generate_of_draft_ok hs hw).trans hsaves.writeDraft
    rw [generate_of_draft_ok hs (hdraft.trans hw), hagain.writeDraft, hsource, hfirst]

/-- A spec is read as it was read the first time. -/
theorem read_again {specs : List FilePath} {report : Report} (hs : g.skipUnchanged = false)
    (hc : c.tree.NoLinks) (hk : c.Keeps f) (hb : c.Between f e) (ho : g.layout.Orderly c specs)
    (hq : q ∈ specs) (h : g.generateEach c specs = (f, .ok report)) : e.read q = c.read q := by
  obtain ⟨t, hct⟩ := ho.isFile q hq
  have hft := get?_generateEach hs hc hct (fun p hp => ho.spared p hp q hq) h
  have hpass := ho.onWalk q hq
  refine Disk.read_of_passes hc (hb.home.trans hk.home) hpass.passes
    (hpass.keeps (hk.trans (hb.keeps hk))).passes ?_
  rcases hb.get? (q.aim c.home) with hfirst | ⟨t', hct', het'⟩
  · rw [hfirst, hft, hct]
  · rw [het', hct']

end Generator

/-! ### Files of the first run -/

/-- Whatever may be read at a path in a second run starts with a slash. -/
def Remarks (c f : Disk) (q : FilePath) : Prop :=
  ∀ s, c.tree.get? (q.aim c.home) = some (.file (.text s)) ∨
    f.tree.get? (q.aim c.home) = some (.file (.text s)) → s.toList.head? = some '/'

namespace Remarks

variable {c c' e f : Disk} {q : FilePath}

theorem grown (h : Remarks c f q) (hg : c.Grown c') : Remarks c' f q := fun s hs => by
  rw [hg.keeps.home] at hs
  rcases hs with hs | hs
  · rcases hg.texts _ _ hs with hold | ⟨s', hs', hslash⟩
    · exact h s (.inl hold)
    · cases hs'; exact hslash
  · exact h s (.inr hs)

/-- A file that is a comment is no spec. -/
theorem exists_draft_eq_error (h : Remarks c f q) (hf : f.tree.NoLinks) (hk : c.Keeps f)
    (hb : c.Between f e) (l : Layout) : ∃ cause, l.draft e q = .error cause := by
  refine l.exists_draft_eq_error (hb.noLinks hf) fun s hs => ?_
  rw [hb.home.trans hk.home] at hs
  rcases hb.get? (q.aim c.home) with hfirst | ⟨t, hct, het⟩
  · exact h s (.inr (hfirst.symm.trans hs))
  · exact h s (.inl (hct.trans (het.symm.trans hs)))

end Remarks

/-! ### Runs again -/

theorem Report.generated_add {r r' : Report} (h : r'.generated = r.generated) (spec : FilePath)
    (o : Outcome) : (r'.add spec o).generated = (r.add spec o).generated := by
  cases o <;> simp [add, h]

namespace Generator

variable {g : Generator} {f : Disk}

/-- A run comes to the same again, also if it meets files of the first run on its way. -/
theorem generateEach_again (hs : g.skipUnchanged = false) (hflat : g.layout.IsFlat)
    (hf : f.tree.NoLinks) {specs specs' : List FilePath} (hsub : specs.Sublist specs') :
    ∀ {c e : Disk} {report : Report}, c.tree.NoLinks → c.tree.HasPlainNames → c.Between f e →
      g.layout.Orderly c specs → specs'.Nodup → (∀ q ∈ specs', q ∉ specs → Remarks c f q) →
      g.generateEach c specs = (f, .ok report) →
      ∃ report', g.generateEach e specs' = (f, .ok report') ∧
        report'.generated = report.generated := by
  induction hsub with
  | slnil =>
    intro c e report _ _ hb _ _ _ h
    cases h
    rw [hb.eq]
    exact ⟨_, rfl, rfl⟩
  | @cons specs specs' extra hsub ih =>
    intro c e report hc ht hb ho hn hextra h
    obtain ⟨hnot, hn'⟩ := List.nodup_cons.1 hn
    obtain ⟨rest, hrest, hsame⟩ := ih hc ht hb ho hn'
      (fun q hq => hextra q (List.mem_cons_of_mem _ hq)) h
    have hk := (grown_generateEach hs hflat hc ht (fun q hq => (ho.onWalk q hq).isWritten) h).keeps
    have hremarks := hextra extra (List.mem_cons_self ..) fun hmem => hnot (hsub.subset hmem)
    obtain ⟨cause, hdraft⟩ := hremarks.exists_draft_eq_error hf hk hb g.layout
    exact ⟨_, generateEach_of_draft_error hs hdraft hrest, hsame⟩
  | @cons_cons specs specs' spec hsub ih =>
    intro c e report hc ht hb ho hn hextra h
    obtain ⟨hnot, hn'⟩ := List.nodup_cons.1 hn
    obtain ⟨ha, rest, hrest, rfl⟩ := generateEach_cons_eq_ok h
    have hspec := ho.onWalk spec (List.mem_cons_self ..)
    have hstep := grown_generate hs hflat hc ht hspec.isWritten ha
    have ho' := (ho.keeps hstep.keeps).tail
    have hk := (grown_generateEach hs hflat hstep.noLinks hstep.plain
      (fun q hq => (ho'.onWalk q hq).isWritten) hrest).keeps
    have hread := read_again hs hc (hstep.keeps.trans hk) hb ho (List.mem_cons_self ..) h
    obtain ⟨e', hgen, hb'⟩ := generate_again hs hc hf ha hk hb hread fun header hheader hends =>
      library?_generateEach hs hflat hheader hends hc ht hspec ho.onWalk ho.not_lt h
    have hextra' : ∀ q ∈ specs', q ∉ specs → Remarks (g.generate c spec).1 f q := by
      intro q hq hq'
      refine (hextra q (List.mem_cons_of_mem _ hq) fun hmem => ?_).grown hstep
      rcases List.mem_cons.1 hmem with rfl | hmem
      · exact hnot hq
      · exact hq' hmem
    obtain ⟨rest', hrest', hsame⟩ := ih hstep.noLinks hstep.plain hb' ho' hn' hextra' hrest
    refine ⟨_, generateEach_cons_of_ok (by rw [hgen]; exact ha) (by rw [hgen]; exact hrest'), ?_⟩
    rw [hgen]
    exact Report.generated_add hsame spec _

end Generator

/-- The specs of a project that no header of theirs goes to are met in order. -/
theorem Layout.orderly_specFiles {l : Layout} {d : Disk} (hflat : l.IsFlat) (hl : d.tree.NoLinks)
    (ht : d.tree.HasPlainNames) (hw : l.root.IsWritten)
    (hspecs : ∀ p ∈ l.specFiles d, ∀ q ∈ l.specFiles d, ∀ header ∈ l.headerPath? p,
      header.same q = false) : l.Orderly d (l.specFiles d) where
  onWalk p hp := l.onWalk_of_mem_specFiles hl ht hw hp
  isFile p hp := (Disk.passes_of_mem_files hl ht (List.mem_filter.1 hp).1).2
  ordered := (Disk.pairwise_aim_files hl ht l.isExcluded l.root).filter _
  spared p hp q hq := by
    obtain ⟨k, hk⟩ := Option.isSome_iff_exists.1 (List.mem_filter.1 hq).2
    have hp' := l.onWalk_of_mem_specFiles hl ht hw hp
    exact spares_of_not_same hflat hp'.isWritten hp'.leadsTo
      (l.onWalk_of_mem_specFiles hl ht hw hq).leadsTo hk (hspecs p hp q hq) d.home

/-- New files that are named like specs are comments. -/
theorem Layout.remarks_of_mem_specFiles {l : Layout} {d f : Disk} (hl : d.tree.NoLinks)
    (hg : d.Grown f) (hne : l.specFiles d ≠ []) {q : FilePath} (hq : q ∈ l.specFiles f)
    (hq' : q ∉ l.specFiles d) : Remarks d f q := by
  obtain ⟨hfile, hkind⟩ := List.mem_filter.1 hq
  have hfiles : l.files d ≠ [] := fun h0 => hne (by rw [specFiles, h0]; rfl)
  have hnew : ∀ c, d.tree.get? (q.aim d.home) ≠ some (.file c) := fun c hc =>
    hq' (List.mem_filter.2 ⟨hg.keeps.mem_files hl hg.noLinks hg.plain hfiles hfile hc, hkind⟩)
  intro s hs
  rcases hs with hs | hs
  · exact absurd hs (hnew _)
  · rcases hg.texts _ _ hs with hold | ⟨s', hs', hslash⟩
    · exact absurd hold (hnew _)
    · cases hs'; exact hslash

/-- Running twice is running once: when a run over all specs of a project ends without a fault and no
header takes the place of a spec, a second run generates the same files and leaves the disk as the
first one did. -/
theorem runAll_again {g : Generator} (hs : g.skipUnchanged = false) (hformat : g.formatter = none)
    (hflat : g.layout.IsFlat) {d f : Disk} {report : Report} (hl : d.tree.NoLinks)
    (ht : d.tree.HasPlainNames) (hw : g.layout.root.IsWritten)
    (hspecs : ∀ p ∈ g.layout.specFiles d, ∀ q ∈ g.layout.specFiles d,
      ∀ header ∈ g.layout.headerPath? p, header.same q = false)
    (h : g.runAll d = (f, .ok report)) :
    ∃ report', g.runAll f = (f, .ok report') ∧ report'.generated = report.generated := by
  have hrun := (Generator.run_eq_ok_of_unformatted hformat).1 h
  by_cases hnil : g.layout.specFiles d = []
  · rw [hnil] at hrun
    cases hrun
    exact ⟨_, h, rfl⟩
  have ho := g.layout.orderly_specFiles hflat hl ht hw hspecs
  have hg := Generator.grown_runAll hs hformat hflat hl ht hw h
  have hsub : (g.layout.specFiles d).Sublist (g.layout.specFiles f) :=
    (hg.keeps.files_sublist hl hg.noLinks ht hg.plain g.layout.isExcluded g.layout.root).filter _
  have hnodup : (g.layout.specFiles f).Nodup :=
    (Disk.nodup_files hg.noLinks hg.plain g.layout.isExcluded g.layout.root).filter _
  obtain ⟨report', hagain, hsame⟩ := Generator.generateEach_again hs hflat hg.noLinks hsub hl ht
    (Disk.Between.refl d f) ho hnodup
    (fun q hq hq' => g.layout.remarks_of_mem_specFiles hl hg hnil hq hq') hrun
  exact ⟨report', (Generator.run_eq_ok_of_unformatted hformat).2 hagain, hsame⟩

/-- A project in which the source of one spec makes a library around the other. -/
def newLibrary : Disk :=
  furnish [] [("r/lib/include/x/src/bar.struct.toml", emptyStruct),
    ("r/lib/src/x/include/foo.struct.toml", emptyStruct)]

/-- The library is there for the spec that comes later, in the first run and in the second. -/
theorem runAll_again_newLibrary : ∃ report,
    sampleGenerator.runAll (sampleGenerator.runAll newLibrary).1 =
      ((sampleGenerator.runAll newLibrary).1, .ok report) ∧
    report.generated.map (·.source) = [FilePath.ofString "r/lib/src/x/src/bar.dtg.cc",
      FilePath.ofString "r/lib/src/x/src/foo.dtg.cc"] := by
  have hrun : sampleGenerator.runAll newLibrary = ((sampleGenerator.runAll newLibrary).1, .ok
      ⟨[⟨FilePath.ofString "r/lib/include/x/src/bar.struct.toml",
          FilePath.ofString "r/lib/include/x/src/bar.dtg.h",
          FilePath.ofString "r/lib/src/x/src/bar.dtg.cc"⟩,
        ⟨FilePath.ofString "r/lib/src/x/include/foo.struct.toml",
          FilePath.ofString "r/lib/src/x/include/foo.dtg.h",
          FilePath.ofString "r/lib/src/x/src/foo.dtg.cc"⟩], [], []⟩) :=
    eq_mk_of_snd (by decide +kernel)
  have hl : newLibrary.tree.NoLinks := noLinks_furnish _ _
  have ht : newLibrary.tree.HasPlainNames := hasPlainNames_furnish _ _
  obtain ⟨report, hagain, hsame⟩ := runAll_again rfl rfl isFlat_sample hl ht (isWritten_ofString _)
    (by decide +kernel) hrun
  exact ⟨report, hagain, by rw [hsame]; rfl⟩

/-- A generator whose headers are named like specs of structs. -/
def structHeaders : Generator :=
  ⟨⟨FilePath.ofString "r", { Config.ofName "p" with headerExtension := ".struct.toml" }⟩, none,
    false⟩

/-- Two specs of one stem, and one whose header takes the place of the second. -/
def overwrittenSpec : Disk :=
  furnish [] [("r/c.dtg.enum.toml", smallEnum), ("r/c.dtg.struct.toml", emptyStruct),
    ("r/c.enum.toml", smallEnum)]

/-- Once the struct is overwritten, the outputs that it shares with the first enum are those of the
enum again. -/
theorem runAll_again_overwrittenSpec : ¬ ∀ (g : Generator) (d f : Disk) (report : Report)
    (text file : String), g.skipUnchanged = false → g.formatter = none →
    parseConfig text file = .ok g.layout.config → g.layout.IsFlat → d.tree.NoLinks →
    d.tree.HasPlainNames → g.layout.root.IsWritten → g.runAll d = (f, .ok report) →
    report.failures = [] → (g.runAll f).1.tree = f.tree := by
  intro h
  have hconfig : parseConfig "project_name = \"p\"\nheader_extension = \".struct.toml\"\n"
      "r/.proj.toml" = .ok structHeaders.layout.config := by decide +kernel
  have hflat : structHeaders.layout.IsFlat := by rw [Layout.IsFlat]; decide
  have hl : overwrittenSpec.tree.NoLinks := noLinks_furnish _ _
  have ht : overwrittenSpec.tree.HasPlainNames := hasPlainNames_furnish _ _
  have hw : structHeaders.layout.root.IsWritten := isWritten_ofString _
  let first := (structHeaders.runAll overwrittenSpec).1
  let enum := FilePath.ofString "r/c.dtg.enum.toml"
  let struct := FilePath.ofString "r/c.dtg.struct.toml"
  let header := FilePath.ofString "r/c.dtg.dtg.struct.toml"
  let last := FilePath.ofString "r/c.enum.toml"
  have hrun : structHeaders.runAll overwrittenSpec = (first, .ok
      ⟨[⟨enum, header, FilePath.ofString "r/c.dtg.dtg.cc"⟩,
        ⟨struct, header, FilePath.ofString "r/c.dtg.dtg.cc"⟩,
        ⟨last, struct, FilePath.ofString "r/c.dtg.cc"⟩], [], []⟩) :=
    eq_mk_of_snd (by decide +kernel)
  obtain ⟨hfiles, henum, hlast, hheader, hstruct, hsource⟩ :
      structHeaders.layout.specFiles first = [header, enum, struct, last] ∧
      (structHeaders.generate first enum).2.isAborted = false ∧
      (structHeaders.generate (structHeaders.generate first enum).1 last).2.isAborted = false ∧
      first.tree.get? (header.aim overwrittenSpec.home) ≠
        overwrittenSpec.tree.get? (header.aim overwrittenSpec.home) ∧
      (structHeaders.generate first enum).1.tree.get? (struct.aim overwrittenSpec.home) ≠
        overwrittenSpec.tree.get? (struct.aim overwrittenSpec.home) ∧
      (structHeaders.generate (structHeaders.generate first enum).1 last).1.tree.get?
        ["r", "c.dtg.dtg.cc"] ≠ first.tree.get? ["r", "c.dtg.dtg.cc"] := by decide +kernel
  have hgrown := Generator.grown_runAll rfl rfl hflat hl ht hw hrun
  have hgrown' := hgrown.trans (Generator.grown_generate rfl hflat hgrown.noLinks hgrown.plain
    (isWritten_ofString _) henum)
  -- the first header is no spec, and what is in the place of the struct is none
  obtain ⟨_, hnone⟩ := structHeaders.layout.exists_draft_eq_error_of_grown
    (q := header) hgrown hheader
  obtain ⟨_, hnone'⟩ := structHeaders.layout.exists_draft_eq_error_of_grown
    (q := struct) hgrown' hstruct
  have hagain : structHeaders.generateEach first [header, enum, struct, last] = _ :=
    Generator.generateEach_of_draft_error rfl hnone <| Generator.generateEach_cons_of_ok henum <|
      Generator.generateEach_of_draft_error rfl hnone' <| Generator.generateEach_cons_of_ok hlast rfl
  have htree := h _ _ _ _ _ _ rfl rfl hconfig hflat hl ht hw hrun rfl
  rw [Generator.runAll, hfiles, (Generator.run_eq_ok_of_unformatted rfl).2 hagain] at htree
  exact hsource (congrArg (fun tree : FileTree => tree.get? ["r", "c.dtg.dtg.cc"]) htree)

end TypeGen.Project
