import TypeGen.Project.Layout
import TypeGen.Proofs.Path.Joining

/-!
Names of generated files. The name of a spec is a stem and the suffix of its kind, and neither can be
read in two ways; a header without a slash in its extension takes the place of its spec, and the
place of a source follows from that of its header.
-/

namespace TypeGen.Spec.Kind

open TypeGen.Text

/-- The kind and the stem can be read off the name of a spec. -/
theorem append_suffix_inj {s t : String} {k j : Kind} (h : s ++ k.suffix = t ++ j.suffix) :
    s = t ∧ k = j := by
  have hkj : k = j := by
    have hk : k.suffix.toList <:+ (s ++ k.suffix).toList := ⟨s.toList, by rw [String.toList_append]⟩
    have hj : j.suffix.toList <:+ (s ++ k.suffix).toList :=
      ⟨t.toList, by rw [h, String.toList_append]⟩
    have hor := List.suffix_or_suffix_of_suffix hk hj
    revert hor; cases k <;> cases j <;> decide
  exact ⟨(String.append_left_inj _).1 (hkj ▸ h), hkj⟩

theorem ofFileName?_eq_some {name : String} {k : Kind} :
    ofFileName? name = some k ↔ ∃ stem, stem ≠ "" ∧ name = stem ++ k.suffix := by
  constructor
  · intro h
    have hk := List.find?_some h
    cases hs : k.stem? name with
    | none => rw [hs] at hk; cases hk
    | some stem => rw [hs] at hk; exact ⟨stem, by simpa using hk, cutEnding?_eq_some.1 hs⟩
  · rintro ⟨stem, hne, rfl⟩
    cases hf : ofFileName? (stem ++ k.suffix) with
    | none =>
      refine absurd (List.find?_eq_none.1 hf k (by cases k <;> simp [all])) ?_
      rw [stem?, cutEnding?_eq_some.2 rfl]; simpa using hne
    | some j =>
      have hj := List.find?_some hf
      cases hs : j.stem? (stem ++ k.suffix) with
      | none => rw [hs] at hj; cases hj
      | some t => rw [(append_suffix_inj (cutEnding?_eq_some.1 hs)).2]

end TypeGen.Spec.Kind

namespace TypeGen.Project

open TypeGen.Spec TypeGen.Store TypeGen.Store.FilePath TypeGen.Text

theorem kindOf?_eq_some {p : FilePath} {k : Kind} :
    kindOf? p = some k ↔ ∃ stem, stem ≠ "" ∧ p.fileName? = some (stem ++ k.suffix) := by
  rw [kindOf?, Option.bind_eq_some_iff]
  constructor
  · rintro ⟨name, hn, hk⟩
    obtain ⟨stem, hne, rfl⟩ := Kind.ofFileName?_eq_some.1 hk
    exact ⟨stem, hne, hn⟩
  · rintro ⟨stem, hne, hn⟩
    exact ⟨_, hn, Kind.ofFileName?_eq_some.2 ⟨stem, hne, rfl⟩⟩

namespace Layout

/-- The extension of headers has no slash in it, so a header is in the directory of its spec. -/
def IsFlat (l : Layout) : Prop := '/' ∉ l.config.headerExtension.toList

theorem headerPath?_eq_some {l : Layout} {spec header : FilePath}
    (h : l.headerPath? spec = some header) : ∃ k stem, stem ≠ "" ∧
      kindOf? spec = some k ∧ spec.fileName? = some (stem ++ k.suffix) ∧
      header = spec.withFileName (stem ++ l.headerSuffix) := by
  rw [headerPath?] at h
  obtain ⟨k, hk, h⟩ := Option.bind_eq_some_iff.1 h
  obtain ⟨name, hn, h⟩ := Option.bind_eq_some_iff.1 h
  obtain ⟨stem, hs, h⟩ := Option.bind_eq_some_iff.1 h
  obtain ⟨stem', hne, hn'⟩ := kindOf?_eq_some.1 hk
  obtain rfl : name = stem' ++ k.suffix := Option.some.inj (hn.symm.trans hn')
  obtain rfl : stem' = stem := (String.append_left_inj _).1 (cutEnding?_eq_some.1 hs)
  exact ⟨k, stem', hne, hk, hn, (Option.some.inj h).symm⟩

/-- Every spec has a header to go with it. -/
theorem exists_headerPath? (l : Layout) {spec : FilePath} {k : Kind} (h : kindOf? spec = some k) :
    ∃ header, l.headerPath? spec = some header := by
  obtain ⟨stem, -, hname⟩ := kindOf?_eq_some.1 h
  have hstem : k.stem? (stem ++ k.suffix) = some stem := cutEnding?_eq_some.2 rfl
  refine ⟨spec.withFileName (stem ++ l.headerSuffix), ?_⟩
  simp only [headerPath?, h, hname, hstem, Option.bind_eq_bind, Option.bind_some]

theorem isPlain_append {s e : String} (hs : '/' ∉ s.toList) (he : '/' ∉ e.toList)
    (hlen : 2 < e.length) : IsPlain (s ++ e) :=
  isPlain_of_length (by simp [String.toList_append, hs, he])
    (by rw [String.length_append]; omega)

theorem isPlain_header {l : Layout} (hl : l.IsFlat) {stem : String} (hs : '/' ∉ stem.toList) :
    IsPlain (stem ++ l.headerSuffix) := by
  have hm : '/' ∉ generatedMark.toList := by decide
  have hlen : generatedMark.length = 4 := rfl
  refine isPlain_append hs ?_ ?_
  · rw [headerSuffix, String.toList_append, List.mem_append, not_or]; exact ⟨hm, hl⟩
  · rw [headerSuffix, String.length_append]; omega

theorem isPlain_source {stem : String} (hs : '/' ∉ stem.toList) : IsPlain (stem ++ sourceSuffix) :=
  isPlain_append hs (by decide) (by decide)

theorem isPlain_spec {stem : String} (hs : '/' ∉ stem.toList) (k : Kind) :
    IsPlain (stem ++ k.suffix) :=
  isPlain_append hs (by cases k <;> decide) (by cases k <;> decide)

/-! ### Headers -/

/-- The name of a header may lead on into directories, but it starts with a name of its own. -/
theorem ofString_header (l : Layout) {stem : String} (hs : '/' ∉ stem.toList) (hne : stem ≠ "") :
    ∃ first rest, ofString (stem ++ l.headerSuffix) = ⟨false, first :: rest⟩ ∧ IsPlain first ∧
      (¬ l.IsFlat → rest ≠ []) := by
  have hmark : '/' ∉ generatedMark.toList := by decide
  have hs' : '/' ∉ (stem ++ generatedMark).toList := by
    rw [String.toList_append, List.mem_append, not_or]; exact ⟨hs, hmark⟩
  have hlen : (stem ++ generatedMark).length = stem.length + 4 := String.length_append ..
  have hne' : stem ++ generatedMark ≠ "" := fun h0 => by rw [h0] at hlen; cases hlen
  obtain ⟨first, rest, hof, hfirst, hle, hrest⟩ :=
    ofString_append (e := l.config.headerExtension) hs' hne'
  have hpos : 0 < stem.length := by
    rw [← String.length_toList]
    exact List.length_pos_iff.2 fun h0 => hne (String.toList_eq_nil_iff.1 h0)
  refine ⟨first, rest, ?_, isPlain_of_length hfirst (by omega), fun h => hrest (not_not.1 h)⟩
  rw [headerSuffix, ← String.append_assoc]; exact hof

theorem isInner_header (l : Layout) {stem : String} (hs : '/' ∉ stem.toList) (hne : stem ≠ "") :
    (ofString (stem ++ l.headerSuffix)).IsInner := by
  obtain ⟨first, rest, hof, hplain, -⟩ := l.ofString_header hs hne
  rw [hof]
  refine ⟨rfl, fun hd => ?_⟩
  have hdot : first = "." := Option.some.inj hd
  have := hplain.active
  simp [isIdle, hdot] at this

theorem components_header {l : Layout} (hl : l.IsFlat) {spec : FilePath} {stem : String} {k : Kind}
    (hs : '/' ∉ stem.toList) (h : spec.fileName? = some (stem ++ k.suffix)) :
    (spec.withFileName (stem ++ l.headerSuffix)).components =
      spec.components.dropLast ++ [.name (stem ++ l.headerSuffix)] := by
  have hplain := isPlain_header hl hs
  rw [components_withFileName h (isInner_of_isPlain hplain), (isInner_of_isPlain hplain).components,
    ofString_of_isPlain hplain]
  simp [counted, componentOf?_of_isPlain hplain]

theorem generatedStem?_eq_some {l : Layout} {p : FilePath} {name stem : String}
    (hn : p.fileName? = some name) (hne : stem ≠ "")
    (h : cutEnding? l.headerSuffix name = some stem ∨
      cutEnding? l.headerSuffix name = none ∧ cutEnding? sourceSuffix name = some stem) :
    l.generatedStem? p = some stem := by
  rw [generatedStem?, hn]
  rcases h with h | ⟨h, h'⟩
  · simp [h, hne]
  · simp [h, h', hne]

theorem generatedStem?_congr {l : Layout} {p q : FilePath} (h : p.components = q.components) :
    l.generatedStem? p = l.generatedStem? q := by
  rw [generatedStem?, generatedStem?, fileName?_congr h]

/-- A name is read as that of a header first, and as that of a source only if it is none. -/
theorem of_generatedStem? {l : Layout} {p : FilePath} {stem : String}
    (h : l.generatedStem? p = some stem) : stem ≠ "" ∧ ∃ name, p.fileName? = some name ∧
      (cutEnding? l.headerSuffix name = some stem ∨
        cutEnding? l.headerSuffix name = none ∧ cutEnding? sourceSuffix name = some stem) := by
  rw [generatedStem?] at h
  obtain ⟨name, hn, h⟩ := Option.bind_eq_some_iff.1 h
  obtain ⟨t, ht, h⟩ := Option.bind_eq_some_iff.1 h
  split at h
  · cases h
  next hne =>
    cases h
    refine ⟨hne, name, hn, ?_⟩
    cases hc : cutEnding? l.headerSuffix name with
    | some u => simp [hc] at ht; exact .inl (ht ▸ rfl)
    | none => simp [hc] at ht; exact .inr ⟨rfl, ht⟩

/-! ### Libraries -/

/-- The two directories of a library. -/
inductive IsSide : String → Prop
  | headers : IsSide includeDirectory
  | sources : IsSide sourceDirectory

theorem IsSide.isPlain {side : String} (h : IsSide side) : IsPlain side := by
  cases h <;> exact isPlain_of_length (by decide) (by decide)

theorem relativeTo?_of_inLibrary? {l : Layout} {d : Disk} {p lib rel : FilePath}
    (h : l.inLibrary? d p = some (lib, rel)) : l.library? d p = some lib ∧
      ∃ side, IsSide side ∧ p.relativeTo? (lib.child side) = some rel := by
  rw [inLibrary?] at h
  obtain ⟨lib', hlib, h⟩ := Option.bind_eq_some_iff.1 h
  obtain ⟨rel', hrel, h⟩ := Option.bind_eq_some_iff.1 h
  cases h
  obtain ⟨side, hside, hr⟩ := List.exists_of_findSome?_eq_some hrel
  refine ⟨hlib, side, ?_, hr⟩
  rcases List.mem_cons.1 hside with rfl | hside
  · exact .headers
  · rw [List.mem_singleton.1 hside]; exact .sources

theorem inLibrary?_eq_some {l : Layout} {d : Disk} {p lib rel : FilePath}
    (h : l.inLibrary? d p = some (lib, rel)) : l.library? d p = some lib ∧ rel.IsInner ∧
      ∃ side, IsSide side ∧ p.components = lib.components ++ .name side :: rel.components := by
  obtain ⟨hlib, side, hs, hr⟩ := relativeTo?_of_inLibrary? h
  refine ⟨hlib, ?_⟩
  have hc := components_child (p := lib) hs.isPlain
  obtain ⟨hinner, hp⟩ := relativeTo?_eq_some (by rw [hc]; simp) hr
  exact ⟨hinner, side, hs, by rw [hp, hc, List.append_assoc]; rfl⟩

/-- Whatever lies in one of the directories of its library is seen from that directory. -/
theorem exists_inLibrary? {l : Layout} {d : Disk} {p lib : FilePath} {side : String}
    {cs : List Component} (h : l.library? d p = some lib) (hside : IsSide side)
    (hp : p.components = lib.components ++ .name side :: cs) :
    ∃ rel, l.inLibrary? d p = some (lib, rel) ∧ rel.components = cs := by
  have hc := components_child (p := lib) hside.isPlain
  have hbelow : (lib.child side).components <+: p.components := by rw [hp, hc]; exact ⟨cs, by simp⟩
  obtain ⟨rel, hrel⟩ := exists_relativeTo? hbelow
  have hcs : rel.components = cs := by
    have := (relativeTo?_eq_some (by rw [hc]; simp) hrel).2
    rw [hp, hc, List.append_assoc] at this
    exact (List.cons.inj (List.append_cancel_left this)).2.symm
  refine ⟨rel, ?_, hcs⟩
  rw [inLibrary?, h]
  cases hside with
  | headers => simp [hrel]
  | sources =>
    have hnone : p.relativeTo? (lib.child includeDirectory) = none := by
      by_contra hne
      obtain ⟨rel', hrel'⟩ := Option.ne_none_iff_exists'.1 hne
      have hc' := components_child (p := lib) IsSide.headers.isPlain
      have := (relativeTo?_eq_some (by rw [hc']; simp) hrel').2
      rw [hp, hc', List.append_assoc] at this
      have := (List.cons.inj (List.append_cancel_left this)).1
      simp [includeDirectory, sourceDirectory] at this
    simp [hnone, hrel]

/-! ### Sources -/

/-- The components of a header as they are under the sources of its library. -/
def mirrored (l : Layout) (d : Disk) (header : FilePath) : List Component :=
  match l.inLibrary? d header with
  | some (lib, rel) => lib.components ++ .name sourceDirectory :: rel.components
  | none => header.components

theorem length_mirrored (l : Layout) (d : Disk) (header : FilePath) :
    (l.mirrored d header).length = header.components.length := by
  rw [mirrored]
  split
  next lib rel h =>
    obtain ⟨-, -, side, -, hc⟩ := inLibrary?_eq_some h
    rw [hc, List.length_append, List.length_append, List.length_cons, List.length_cons]
  next => rfl

theorem noSlash_stem {l : Layout} {p : FilePath} (hp : ∀ name, p.fileName? = some name →
    '/' ∉ name.toList) : '/' ∉ ((l.generatedStem? p).getD "").toList := by
  cases h : l.generatedStem? p with
  | none => decide
  | some stem =>
    obtain ⟨-, name, hn, hc⟩ := of_generatedStem? h
    have hname := hp name hn
    rcases hc with hc | ⟨-, hc⟩
    all_goals
      rw [cutEnding?_eq_some.1 hc, String.toList_append, List.mem_append, not_or] at hname
      exact hname.1

/-- A source has the place of the header in the library, with another name at its end. -/
theorem exists_sourcePath_eq {l : Layout} {d : Disk} {header : FilePath} {name : String}
    (hn : header.fileName? = some name) : ∃ (p : FilePath) (old : String), p.fileName? = some old ∧
      p.components = l.mirrored d header ∧
      l.sourcePath d header = p.withFileName ((l.generatedStem? header).getD "" ++ sourceSuffix) := by
  rw [sourcePath, mirrored]
  cases hi : l.inLibrary? d header with
  | none => exact ⟨header, name, hn, rfl, rfl⟩
  | some found =>
    obtain ⟨lib, rel⟩ := found
    obtain ⟨-, hrel, side, -, hsplit⟩ := inLibrary?_eq_some hi
    have hjoin : ((lib.child sourceDirectory).join rel).components =
        lib.components ++ .name sourceDirectory :: rel.components := by
      rw [components_join hrel, components_child IsSide.sources.isPlain, List.append_assoc]; rfl
    have hlast : ∃ old, ((lib.child sourceDirectory).join rel).fileName? = some old := by
      have hheader := fileName?_eq_some.1 hn
      rw [hsplit, List.getLast?_append, List.getLast?_cons] at hheader
      simp only [fileName?_eq_some, hjoin, List.getLast?_append, List.getLast?_cons]
      cases hl : rel.components.getLast? with
      | none => exact ⟨sourceDirectory, rfl⟩
      | some last =>
        rw [hl] at hheader
        exact ⟨name, by simpa using hheader⟩
    obtain ⟨old, hold⟩ := hlast
    exact ⟨_, old, hold, hjoin, rfl⟩

section Sources

variable {l : Layout} {d : Disk} {header : FilePath} {name : String}

theorem isPlain_sourceName (hn : header.fileName? = some name) (hs : '/' ∉ name.toList) :
    IsPlain ((l.generatedStem? header).getD "" ++ sourceSuffix) :=
  isPlain_source (noSlash_stem fun name' hn' => by rw [hn] at hn'; cases hn'; exact hs)

theorem components_sourcePath (hn : header.fileName? = some name) (hs : '/' ∉ name.toList) :
    (l.sourcePath d header).components = (l.mirrored d header).dropLast ++
      [.name ((l.generatedStem? header).getD "" ++ sourceSuffix)] := by
  have hplain : IsPlain ((l.generatedStem? header).getD "" ++ sourceSuffix) := isPlain_sourceName hn hs
  have hinner := isInner_of_isPlain hplain
  obtain ⟨p, old, hold, hp, heq⟩ := exists_sourcePath_eq (l := l) (d := d) hn
  rw [heq, components_withFileName hold hinner, hp, hinner.components, ofString_of_isPlain hplain]
  simp [counted, componentOf?_of_isPlain hplain]

theorem getLast?_sourcePath (hn : header.fileName? = some name) (hs : '/' ∉ name.toList) :
    (l.sourcePath d header).pieces.getLast? =
      some ((l.generatedStem? header).getD "" ++ sourceSuffix) := by
  have hof := ofString_of_isPlain (isPlain_sourceName (l := l) hn hs)
  obtain ⟨p, old, hold, -, heq⟩ := exists_sourcePath_eq (l := l) (d := d) hn
  rw [heq, getLast?_withFileName hold (by rw [hof]) (by rw [hof]; simp), hof]
  rfl

end Sources

end Layout

end TypeGen.Project
