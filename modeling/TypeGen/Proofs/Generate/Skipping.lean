import TypeGen.Proofs.Generate.History
import TypeGen.Proofs.Generate.Recording
import TypeGen.Proofs.Generate.Sample
import TypeGen.Proofs.Layout.Outputs
import TypeGen.Proofs.Store.Resaving

/-!
Leaving files alone. A generator that skips specs does what one does that skips none, unless header
and source both tell of the spec's text. Then specs with that very text gave them theirs; and if it
was this spec, the other generator would write both over themselves.
-/

namespace TypeGen.Project

open TypeGen.Render TypeGen.Spec TypeGen.Store TypeGen.Text

/-! ### What is recorded -/

theorem recorded_eq_some {d : Disk} {p : FilePath} {m : Metadata}
    (h : recorded d p = .ok (some m)) : ∃ s, d.readText? p = some s ∧ Metadata.parse? s = some m := by
  rw [recorded] at h
  split at h
  · split at h
    next s hs => exact ⟨s, hs, Except.ok.inj h⟩
    next => cases h
  · cases h

/-- Only what is there and no text is an obstacle. -/
theorem recorded_eq_error {d : Disk} {p : FilePath} {fault : Fault} (h : recorded d p = .error fault) :
    fault = .unread p ∧ d.isThere p = true ∧ d.readText? p = none := by
  rw [recorded] at h
  split at h
  next hthere =>
    split at h
    next => cases h
    next hn => cases h; exact ⟨rfl, hthere, hn⟩
  next => cases h

namespace Generator

theorem isCurrent_eq_true {d : Disk} {header source : FilePath} {m : Metadata}
    (h : isCurrent d header source m = .ok true) :
    recorded d header = .ok (some m) ∧ recorded d source = .ok (some m) := by
  rw [isCurrent] at h
  cases hh : recorded d header with
  | error fault => rw [hh] at h; cases h
  | ok recordedHeader =>
    rw [hh] at h
    by_cases hm : recordedHeader = some m
    · cases hs : recorded d source with
      | error fault => simp [bind, Except.bind, hm, hs] at h
      | ok recordedSource =>
        simp [bind, Except.bind, pure, Except.pure, hm, hs] at h
        exact ⟨congrArg _ hm, congrArg _ h⟩
    · simp [bind, Except.bind, pure, Except.pure, hm] at h

theorem isCurrent_eq_error {d : Disk} {header source : FilePath} {m : Metadata} {fault : Fault}
    (h : isCurrent d header source m = .error fault) :
    recorded d header = .error fault ∨ recorded d source = .error fault := by
  rw [isCurrent] at h
  cases hh : recorded d header with
  | error fault' => rw [hh] at h; exact .inl (congrArg _ (Except.error.inj h))
  | ok recordedHeader =>
    rw [hh] at h
    by_cases hm : recordedHeader = some m
    · cases hs : recorded d source with
      | error fault' =>
        simp [bind, Except.bind, hm, hs] at h
        exact .inr (congrArg _ h)
      | ok recordedSource => simp [bind, Except.bind, pure, Except.pure, hm, hs] at h
    · simp [bind, Except.bind, pure, Except.pure, hm] at h

end Generator

/-! ### Where recorded files come from -/

/-- The text that an entry holds. -/
def entryText? : Entry → Option String
  | .file (.text s) => some s
  | _ => none

/-- A disk without generated files: no file tells of a spec. -/
def IsUntold (d : Disk) : Prop :=
  ∀ place text, d.tree.get? place = some (.file (.text text)) → Metadata.parse? text = none

instance (d : Disk) : Decidable (IsUntold d) :=
  decidable_of_iff (∀ e ∈ d.tree.entries, ∀ s ∈ entryText? e.2, Metadata.parse? s = none) (by
    constructor
    · intro h place text hp
      exact h _ (FileTree.mem_entries.2 hp) text rfl
    · rintro h ⟨place, e⟩ hm s hs
      cases e with
      | file c =>
        cases c with
        | text t => cases hs; exact h place s (FileTree.mem_entries.1 hm)
        | binary => cases hs
      | directory => cases hs
      | link target => cases hs)

theorem Draft.Gives.parse? {w : Draft} {l : Layout} {s : String} (h : w.Gives l s)
    (hname : '\n' ∉ (w.name l).toList) : Metadata.parse? s = some w.metadata := by
  cases h with
  | header => exact parse?_headerText hname
  | source path => exact parse?_sourceText hname

/-- The text of a file was given to it by a spec that had a given text. -/
def StemsFrom (l : Layout) (log : List Attempt) (d : Disk) (p : FilePath) (text : String) : Prop :=
  ∃ a ∈ log, ∃ w, a.Drafts l w ∧ w.text = text ∧ ∃ s, d.readText? p = some s ∧ w.Gives l s

/-- Names of specs do not break out of the comment that they are written into. -/
def KeepLines (l : Layout) (log : List Attempt) : Prop :=
  ∀ a ∈ log, '\n' ∉ (l.relative a.spec).slashed.toList

/-- Two texts of specs with the same hash are the same: any that was generated from, and one. -/
def TellsApart (log : List Attempt) (text : String) : Prop :=
  ∀ a ∈ log, ∀ s, a.disk.readText? a.spec = some s →
    Digest.contentHash s = Digest.contentHash text → s = text

theorem tellsApart_nil (text : String) : TellsApart [] text := fun _ ha => nomatch ha

/-- An attempt on the text itself has no other text of its hash. -/
theorem TellsApart.cons {log : List Attempt} {d : Disk} {spec : FilePath} {text : String}
    (h : d.readText? spec = some text) (hlog : TellsApart log text) :
    TellsApart (⟨d, spec⟩ :: log) text := fun a ha s hs hhash => by
  rcases List.mem_cons.1 ha with rfl | ha
  · exact Option.some.inj (hs.symm.trans h)
  · exact hlog a ha s hs hhash

theorem Attempt.Drafts.text_eq {l : Layout} {log : List Attempt} {a : Attempt} {w : Draft}
    {text : String} (hw : a.Drafts l w) (ha : a ∈ log) (happart : TellsApart log text)
    (hm : w.metadata = Metadata.ofSpec text) : w.text = text :=
  happart a ha w.text (Layout.draft_eq_ok hw).2.2.1 (Metadata.mk.inj hm)

theorem Attempt.Drafts.notMem_name {l : Layout} {log : List Attempt} {a : Attempt} {w : Draft}
    (hw : a.Drafts l w) (ha : a ∈ log) (hlines : KeepLines l log) : '\n' ∉ (w.name l).toList := by
  rw [Draft.name, (Layout.draft_eq_ok hw).1]; exact hlines a ha

theorem Reachable.stemsFrom {l : Layout} {start d : Disk} {log : List Attempt}
    (h : Reachable l start log d) (hl : start.tree.NoLinks) (hu : IsUntold start)
    (hlines : KeepLines l log) {text : String} (happart : TellsApart log text) {p : FilePath}
    (hk : kindOf? p = none) (hp : recorded d p = .ok (some (Metadata.ofSpec text))) :
    StemsFrom l log d p text := by
  obtain ⟨s, hread, hparse⟩ := recorded_eq_some hp
  obtain ⟨place, hplace, hget⟩ := Disk.readText?_eq_some.1 hread
  have hspec : ¬ IsSpecPlace place := by
    rintro ⟨name, hlast, hkind⟩
    obtain ⟨name', hlast', hname'⟩ := Disk.getLast?_filePlace? (h.noLinks hl) hplace
    obtain rfl : name' = name := Option.some.inj (hlast'.symm.trans hlast)
    rw [kindOf?, hname', Option.bind_some] at hk
    rw [hk] at hkind; cases hkind
  rcases h.get?_file hl hspec hget with hstart | ⟨text', hc, a, ha, w, hw, hgives⟩
  · rw [hu place s hstart] at hparse; cases hparse
  · cases hc
    rw [hgives.parse? (hw.notMem_name ha hlines)] at hparse
    exact ⟨a, ha, w, hw, hw.text_eq ha happart (Option.some.inj hparse), s, hread, hgives⟩

/-! ### Skipping specs -/

/-- A generator that formats nothing. -/
def Layout.generator (l : Layout) (skip : Bool) : Generator := ⟨l, none, skip⟩

theorem Layout.generate_eager {l : Layout} {d : Disk} {spec : FilePath} {w : Draft}
    (h : l.draft d spec = .ok w) :
    (l.generator false).generate d spec = (l.generator false).writeDraft d w := by
  have hgen := (l.generator false).generate_eager d spec
  rw [show (l.generator false).layout = l from rfl, h] at hgen
  exact hgen

theorem Layout.generate_ne_unchanged (l : Layout) (d : Disk) (spec : FilePath) :
    ((l.generator false).generate d spec).2 ≠ .unchanged :=
  (l.generator false).generate_eager_ne_unchanged d spec

/-- Header and source have the texts that this spec gave to them, and the source includes the header
as it has to now. -/
def IsOwn (l : Layout) (log : List Attempt) (d : Disk) (spec header : FilePath) : Prop :=
  ∃ path, l.includePath d header = .ok path ∧
    (∃ a ∈ log, ∃ w, a.spec = spec ∧ a.Drafts l w ∧ d.readText? header = some (w.headerText l)) ∧
    ∃ a ∈ log, ∃ w, a.spec = spec ∧ a.Drafts l w ∧
      d.readText? (l.sourcePath d header) = some (w.sourceText l path)

/-- A spec whose text a file tells of is read into the draft that gave the file its own. -/
theorem Attempt.Drafts.again {l : Layout} {log : List Attempt} {d : Disk} {a : Attempt} {w : Draft}
    {p : FilePath} {text s : String} (hw : a.Drafts l w) (ha : a ∈ log) (hlines : KeepLines l log)
    (happart : TellsApart log text) (hread : d.readText? a.spec = some text)
    (hp : recorded d p = .ok (some (Metadata.ofSpec text))) (hs : d.readText? p = some s)
    (hgives : w.Gives l s) : l.draft d a.spec = .ok w := by
  obtain ⟨s', hs', hparse⟩ := recorded_eq_some hp
  obtain rfl : s = s' := Option.some.inj (hs.symm.trans hs')
  rw [hgives.parse? (hw.notMem_name ha hlines)] at hparse
  exact Layout.draft_congr hw (by rw [hread, hw.text_eq ha happart (Option.some.inj hparse)])

/-- A draft whose texts are there already is written without a change. -/
theorem Generator.writeDraft_self {g : Generator} {d : Disk} {w : Draft} {path : FilePath}
    (hl : d.tree.NoLinks) (hheader : d.readText? w.header = some (w.headerText g.layout))
    (hpath : g.layout.includePath d w.header = .ok path)
    (hsource : d.readText? (g.layout.sourcePath d w.header) = some (w.sourceText g.layout path)) :
    g.writeDraft d w = (d, .generated ⟨w.spec, w.header, g.layout.sourcePath d w.header⟩) := by
  have hsaveHeader := save_self hl hheader
  have hsaveSource := save_self hl hsource
  rw [writeDraft, write]
  split
  next hs => exact absurd (hs.symm.trans hsaveHeader) (by simp)
  next hs =>
    obtain ⟨rfl, -⟩ := Prod.mk.inj (hs.symm.trans hsaveHeader)
    split
    next hp => exact absurd (hp.symm.trans hpath) (by simp)
    next hp =>
      obtain rfl := Except.ok.inj (hp.symm.trans hpath)
      split
      next hs' => exact absurd (hs'.symm.trans hsaveSource) (by simp)
      next hs' => obtain ⟨rfl, -⟩ := Prod.mk.inj (hs'.symm.trans hsaveSource); rfl

/-- A spec that gave both files their texts would give them the same texts again. -/
theorem IsOwn.generate_eager {l : Layout} {log : List Attempt} {d : Disk} {spec header : FilePath}
    {text : String} (h : IsOwn l log d spec header) (hl : d.tree.NoLinks)
    (hlines : KeepLines l log) (happart : TellsApart log text)
    (hheader : l.headerPath? spec = some header) (hread : d.readText? spec = some text)
    (hh : recorded d header = .ok (some (Metadata.ofSpec text)))
    (hs : recorded d (l.sourcePath d header) = .ok (some (Metadata.ofSpec text))) :
    (l.generator false).generate d spec =
      (d, .generated ⟨spec, header, l.sourcePath d header⟩) := by
  obtain ⟨path, hpath, ⟨a, ha, w, rfl, hw, hreadHeader⟩, b, hb, v, hspec, hv, hreadSource⟩ := h
  have hwdraft := hw.again ha hlines happart hread hh hreadHeader .header
  have hvdraft := hv.again hb hlines happart (hspec ▸ hread) hs hreadSource (.source path)
  obtain rfl : w = v := Except.ok.inj (hwdraft.symm.trans (hspec ▸ hvdraft))
  obtain ⟨hwspec, hwheader, -⟩ := Layout.draft_eq_ok hwdraft
  obtain rfl : w.header = header := Option.some.inj (hwheader.symm.trans hheader)
  rw [Layout.generate_eager hwdraft, ← hwspec]
  exact Generator.writeDraft_self hl hreadHeader hpath hreadSource

/-! ### Right after a generation -/

theorem recorded_of_readText? {d : Disk} {p : FilePath} {s : String} (h : d.readText? p = some s) :
    recorded d p = .ok (Metadata.parse? s) := by
  have hthere : d.isThere p = true := by
    obtain ⟨place, hloc⟩ := Disk.exists_locate_of_readText? h
    rw [Disk.isThere, hloc]
  rw [recorded, if_pos hthere, h]

theorem generate_of_isCurrent {l : Layout} {d : Disk} {spec header : FilePath} {text : String}
    (hheader : l.headerPath? spec = some header) (hread : d.readText? spec = some text)
    (hcurrent : Generator.isCurrent d header (l.sourcePath d header) (Metadata.ofSpec text) = .ok true) :
    (l.generator true).generate d spec = (d, .unchanged) := by
  obtain ⟨k, -, -, hk, -⟩ := Layout.headerPath?_eq_some hheader
  have hheader' : (l.generator true).layout.headerPath? spec = some header := hheader
  rw [Generator.generate, hk, hheader', Disk.readText?_eq_some_iff.1 hread]
  simp only [Generator.generateText, Layout.generator, if_true, hcurrent]

/-- A spec is skipped when one with the same header and the same text has just been generated. -/
theorem unchanged_of_generated {l : Layout} (skip : Bool) {d d' : Disk} {spec q : FilePath}
    {files : Generated} (hl : d.tree.NoLinks) (ha : l.NamesApart) (hw : spec.IsWritten)
    (hname : '\n' ∉ (l.relative spec).slashed.toList)
    (hgen : (l.generator skip).generate d spec = (d', .generated files))
    (hlib : l.library? d files.header = l.library? d' files.header)
    (hq : l.headerPath? q = some files.header) (htext : d.readText? q = d.readText? spec) :
    (l.generator true).generate d' q = (d', .unchanged) := by
  obtain ⟨w, hdraft, rfl, hheader, path, -, -, hread⟩ := Generator.readText?_generated hl ha hw hgen
  obtain ⟨rfl, -, hspec, -⟩ := Layout.draft_eq_ok hdraft
  obtain ⟨k, -, -, hk, -⟩ := Layout.headerPath?_eq_some hq
  have hreadq : d'.readText? q = some w.text := by
    have hkept := Generator.readText?_generate (g := l.generator skip) hl (htext.trans hspec)
      (Layout.spares_spec ha.keepsSpecs hw hk d.home)
    rw [hgen] at hkept; exact hkept
  have hrecorded : recorded d' w.header = .ok (some w.metadata) :=
    (recorded_of_readText? hheader).trans (congrArg _ (Draft.parse?_headerText hname))
  have hrecorded' : recorded d' (l.sourcePath d' w.header) = .ok (some w.metadata) := by
    rw [← Layout.sourcePath_congr hlib]
    exact (recorded_of_readText? hread).trans (congrArg _ (Draft.parse?_sourceText hname))
  have hcurrent : Generator.isCurrent d' w.header (l.sourcePath d' w.header) w.metadata = .ok true := by
    simp only [Generator.isCurrent, hrecorded, hrecorded', bind, Except.bind, if_true]
    simp [pure, Except.pure]
  exact generate_of_isCurrent hq hreadq hcurrent

/-- A spec that has just been generated has given both files their texts. -/
theorem isOwn_of_generated {l : Layout} (skip : Bool) {d d' : Disk} {spec : FilePath}
    {files : Generated} (hl : d.tree.NoLinks) (ha : l.NamesApart) (hw : spec.IsWritten)
    (hgen : (l.generator skip).generate d spec = (d', .generated files))
    (hlib : l.library? d files.header = l.library? d' files.header) (log : List Attempt) :
    IsOwn l (⟨d, spec⟩ :: log) d' spec files.header := by
  obtain ⟨w, hdraft, rfl, hheader, path, -, hpath, hread⟩ :=
    Generator.readText?_generated hl ha hw hgen
  refine ⟨path, hpath hlib, ⟨_, List.mem_cons_self .., w, rfl, hdraft, hheader⟩, _,
    List.mem_cons_self .., w, rfl, hdraft, ?_⟩
  rw [← Layout.sourcePath_congr hlib]
  exact hread

/-! ### Skipping on any disk that is reached -/

/-- What may be when specs are skipped, on any disk that a project can come to: all is as if none
were; or a file that is there cannot be read; or both files stem from specs that had this text, and
where they are this spec's own, they would be written over themselves. -/
theorem generate_skipping {l : Layout} {start d : Disk} {log : List Attempt} {spec : FilePath}
    (hreach : Reachable l start log d) (hl : start.tree.NoLinks) (hu : IsUntold start)
    (hkeeps : l.KeepsSpecs) (hlines : KeepLines l log)
    (happart : ∀ text, d.readText? spec = some text → TellsApart log text) (hw : spec.IsWritten) :
    (l.generator true).generate d spec = (l.generator false).generate d spec ∨
      ∃ header text, l.headerPath? spec = some header ∧ d.readText? spec = some text ∧
        ((∃ p, (p = header ∨ p = l.sourcePath d header) ∧ d.isThere p = true ∧
            d.readText? p = none ∧ (l.generator true).generate d spec = (d, .aborted (.unread p))) ∨
          (l.generator true).generate d spec = (d, .unchanged) ∧
            StemsFrom l log d header text ∧ StemsFrom l log d (l.sourcePath d header) text ∧
            (IsOwn l log d spec header → (l.generator false).generate d spec =
              (d, .generated ⟨spec, header, l.sourcePath d header⟩))) := by
  rcases (l.generator true).generate_eq_eager_or d spec with heq |
    ⟨header, text, hheader, hread, ⟨hcurrent, hgen⟩ | ⟨fault, hcurrent, hgen⟩⟩
  · exact .inl heq
  · obtain ⟨hh, hs⟩ := Generator.isCurrent_eq_true hcurrent
    have hlinks := hreach.noLinks hl
    obtain ⟨s, hreadHeader, -⟩ := recorded_eq_some hh
    obtain ⟨stem, k, h⟩ := Layout.exists_isHeaderOf hw hheader (endsInName_of_readText? hreadHeader)
    obtain ⟨stem', -, hname⟩ := h.fileName?_source d
    exact .inr ⟨header, text, hheader, hread, .inr ⟨hgen,
      hreach.stemsFrom hl hu hlines (happart text hread) (h.kindOf?_header hkeeps) hh,
      hreach.stemsFrom hl hu hlines (happart text hread) (kindOf?_of_source hname) hs,
      fun hown => hown.generate_eager hlinks hlines (happart text hread) hheader hread hh hs⟩⟩
  · refine .inr ⟨header, text, hheader, hread, .inl ?_⟩
    rcases Generator.isCurrent_eq_error hcurrent with hrec | hrec
    · obtain ⟨rfl, hthere, hnone⟩ := recorded_eq_error hrec
      exact ⟨header, .inl rfl, hthere, hnone, hgen⟩
    · obtain ⟨rfl, hthere, hnone⟩ := recorded_eq_error hrec
      exact ⟨_, .inr rfl, hthere, hnone, hgen⟩

/-! ### Two kinds of one text -/

/-- A furnished disk tells of no spec if none of its files does. -/
theorem isUntold_furnish (directories : List String) {files : List (String × String)}
    (h : ∀ f ∈ files, Metadata.parse? f.2 = none) : IsUntold (furnish directories files) := by
  refine (furnish_induction (P := fun d => d.tree.NoLinks ∧ IsUntold d) (by decide)
    (fun d s hd => ?_) fun d f hf hd => ⟨noLinks_save hd.1 rfl, fun place text htext => ?_⟩).2
  · have hadds := d.onlyAdds_makeDirectories (FilePath.ofString s)
    exact ⟨hadds.noLinks hd.1, fun place text htext => hd.2 place text (hadds.get?_file htext)⟩
  · rcases get?_file_of_save hd.1 rfl htext with hold | ⟨hnew, -⟩
    · exact hd.2 place text hold
    · cases hnew; exact h f hf

/-- A project with one text as the spec of a struct and as that of an enum of another stem. -/
def apart : Disk := furnish [] [("r/bar.struct.toml", emptyStruct), ("r/foo.enum.toml", emptyStruct)]

def ofOldName : FilePath := FilePath.ofString "r/bar.struct.toml"

/-- The project once the struct has been generated and its spec has been renamed to the stem of the
enum: saved under the new name and removed under the old one. -/
def twoKinds : Disk :=
  let copied := (save (sampleGenerator.generate apart ofOldName).1 ofStruct emptyStruct).1
  (copied.remove? ofOldName).getD copied

/-- The project once the struct has been generated under its new name. -/
def structGenerated : Disk := (sampleGenerator.generate twoKinds ofStruct).1

def structAttempts : List Attempt := [⟨twoKinds, ofStruct⟩, ⟨apart, ofOldName⟩]

theorem noLinks_apart : apart.tree.NoLinks := noLinks_furnish _ _

theorem isUntold_apart : IsUntold apart :=
  isUntold_furnish [] (by decide : ∀ f ∈ [("r/bar.struct.toml", emptyStruct),
    ("r/foo.enum.toml", emptyStruct)], Metadata.parse? f.2 = none)

theorem reachable_twoKinds :
    Reachable sampleGenerator.layout apart [⟨apart, ofOldName⟩] twoKinds := by
  have hkind : kindOf? ofStruct = some .struct := by decide
  have hcopied := (Reachable.start.generate sampleGenerator ofOldName rfl).edit
    (isEdit_save (sampleGenerator.noLinks_generate noLinks_apart ofOldName) hkind emptyStruct)
  rw [twoKinds]
  cases hremoved : Disk.remove? _ ofOldName with
  | none => exact hcopied
  | some d => exact hcopied.edit (isEdit_remove? hremoved)

theorem readText?_twoKinds : apart.readText? ofOldName = some emptyStruct ∧
    twoKinds.readText? ofOldName = none ∧ twoKinds.readText? ofStruct = some emptyStruct ∧
      twoKinds.readText? ofEnum = some emptyStruct := by decide +kernel

theorem generate_twoKinds :
    sampleGenerator.generate twoKinds ofStruct = (structGenerated, .generated (ofBoth ofStruct)) :=
  eq_mk_of_snd (by decide +kernel)

theorem noLinks_twoKinds : twoKinds.tree.NoLinks := reachable_twoKinds.noLinks noLinks_apart

theorem reachable_structGenerated :
    Reachable sampleGenerator.layout apart structAttempts structGenerated := by
  have hreach := reachable_twoKinds.generate sampleGenerator ofStruct rfl
  simp only [generate_twoKinds] at hreach
  exact hreach

theorem namesApart_sample : sampleGenerator.layout.NamesApart :=
  ⟨by decide, by decide, by decide, by decide⟩

/-- Generating the struct spares all specs. -/
theorem readText?_structGenerated {q : FilePath} {k : Kind} {s : String} (hk : kindOf? q = some k)
    (hread : twoKinds.readText? q = some s) : structGenerated.readText? q = some s := by
  have hspares := Layout.spares_spec (p := ofStruct) namesApart_sample.keepsSpecs
    (FilePath.isWritten_ofString _) hk twoKinds.home
  have hkept := Generator.readText?_generate noLinks_twoKinds hread hspares
  simp only [generate_twoKinds] at hkept
  exact hkept

theorem library?_structGenerated : sampleGenerator.layout.library? twoKinds (ofBoth ofStruct).header =
    sampleGenerator.layout.library? structGenerated (ofBoth ofStruct).header :=
  Generator.library?_generated noLinks_twoKinds isFlat_sample (FilePath.isWritten_ofString _) (by decide)
    generate_twoKinds

theorem isOwn_structGenerated : IsOwn sampleGenerator.layout structAttempts structGenerated ofStruct
    (ofBoth ofStruct).header :=
  isOwn_of_generated false noLinks_twoKinds namesApart_sample
    (FilePath.isWritten_ofString _) generate_twoKinds library?_structGenerated _

/-- Either spec is skipped now, as both have the text that the files tell of. -/
theorem unchanged_structGenerated {q : FilePath}
    (hq : sampleGenerator.layout.headerPath? q = some (ofBoth ofStruct).header)
    (htext : twoKinds.readText? q = twoKinds.readText? ofStruct) :
    (sampleGenerator.layout.generator true).generate structGenerated q =
      (structGenerated, .unchanged) :=
  unchanged_of_generated false noLinks_twoKinds namesApart_sample
    (FilePath.isWritten_ofString _) (by decide) generate_twoKinds library?_structGenerated hq htext

theorem tellsApart_structAttempts : TellsApart structAttempts emptyStruct :=
  .cons readText?_twoKinds.2.2.1 (.cons readText?_twoKinds.1 (tellsApart_nil emptyStruct))

def Outcome.hasFailed : Outcome → Bool
  | .failed _ => true
  | _ => false

/-- The files of a struct are taken for those of an enum with the same text, which is no enum. -/
theorem skipping_twoKinds : ¬ ∀ (l : Layout) (start d : Disk) (log : List Attempt)
    (spec : FilePath), Reachable l start log d → start.tree.NoLinks → IsUntold start →
    (∀ text, d.readText? spec = some text → TellsApart log text) →
    ((l.generator true).generate d spec).1 = ((l.generator false).generate d spec).1 ∧
      ((l.generator true).generate d spec).2.hasFailed =
        ((l.generator false).generate d spec).2.hasFailed := by
  intro h
  obtain ⟨-, -, hstruct, henum⟩ := readText?_twoKinds
  have hread := readText?_structGenerated (q := ofEnum) rfl henum
  have hunchanged := unchanged_structGenerated (q := ofEnum) (by decide) (henum.trans hstruct.symm)
  have hfails : ((sampleGenerator.layout.generator false).generate structGenerated ofEnum).2.hasFailed =
    true := by decide +kernel
  obtain ⟨-, hfailed⟩ := h _ apart structGenerated structAttempts ofEnum reachable_structGenerated
    noLinks_apart isUntold_apart fun text htext => by
      rw [Option.some.inj (htext.symm.trans hread)]; exact tellsApart_structAttempts
  rw [hunchanged, hfails] at hfailed; cases hfailed

/-- The struct itself is skipped under its new name, and would be generated as it was. -/
theorem skipping_structGenerated : twoKinds.readText? ofOldName = none ∧
    (sampleGenerator.layout.generator true).generate structGenerated ofStruct =
        (structGenerated, .unchanged) ∧
      ∃ header, sampleGenerator.layout.headerPath? ofStruct = some header ∧
        (sampleGenerator.layout.generator false).generate structGenerated ofStruct =
          (structGenerated, .generated ⟨ofStruct, header,
            sampleGenerator.layout.sourcePath structGenerated header⟩) := by
  have hunchanged := unchanged_structGenerated (q := ofStruct) (by decide) rfl
  have hread := readText?_structGenerated (q := ofStruct) rfl readText?_twoKinds.2.2.1
  have hlines : KeepLines sampleGenerator.layout structAttempts := by
    intro a ha
    rcases List.mem_cons.1 ha with rfl | ha
    · decide
    · rw [List.mem_singleton.1 ha]; decide
  refine ⟨readText?_twoKinds.2.1, hunchanged, ?_⟩
  rcases generate_skipping reachable_structGenerated noLinks_apart isUntold_apart
    namesApart_sample.keepsSpecs hlines (fun text htext => by
      rw [Option.some.inj (htext.symm.trans hread)]; exact tellsApart_structAttempts)
    (FilePath.isWritten_ofString _) with
    heq | ⟨header, text, hheader, htext, ⟨p, -, -, -, habort⟩ | ⟨-, -, -, hown⟩⟩
  · have houtcome := congrArg Prod.snd (hunchanged.symm.trans heq)
    exact absurd houtcome.symm (Layout.generate_ne_unchanged _ _ _)
  · have houtcome : Outcome.unchanged = .aborted (.unread p) :=
      congrArg Prod.snd (hunchanged.symm.trans habort)
    cases houtcome
  · have hsame : header = (ofBoth ofStruct).header :=
      Option.some.inj (hheader.symm.trans (by decide))
    exact ⟨header, hheader, hown (hsame ▸ isOwn_structGenerated)⟩

end TypeGen.Project
