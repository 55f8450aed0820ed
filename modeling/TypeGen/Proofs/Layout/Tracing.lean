import TypeGen.Project.Outdated
import TypeGen.Proofs.Generate.Draft
import TypeGen.Proofs.Generate.Sample
import TypeGen.Proofs.Store.Saving

/-!
Tracing generated files back to their specs. Where a source goes is found from the place of its
header, and where its spec may be is found again from the place of the source. The two agree unless
the extension of headers has a slash in it, the source is named as a header would be, or the source
lies in a library of its own.
-/

namespace TypeGen.Project

open TypeGen.Spec TypeGen.Store TypeGen.Store.FilePath TypeGen.Text

namespace Layout

/-- Some spec from which a file may stem is at the path of `spec`. -/
def LooksFor (l : Layout) (d : Disk) (p spec : FilePath) : Prop :=
  ∃ c ∈ l.possibleSpecs d p, c.same spec = true

/-- The directories in which the specs of a generated file are looked for. -/
def specDirectories (l : Layout) (d : Disk) (p : FilePath) : List FilePath :=
  let inLibrary := match l.inLibrary? d p with
    | some (lib, rel) =>
      let dir := rel.parent?.getD FilePath.empty
      [(lib.child includeDirectory).join dir, (lib.child sourceDirectory).join dir]
    | none => []
  inLibrary ++ p.parent?.toList.filter fun dir => !inLibrary.any (·.same dir)

theorem possibleSpecs_eq {l : Layout} {d : Disk} {p : FilePath} {stem : String}
    (h : l.generatedStem? p = some stem) : l.possibleSpecs d p =
      (l.specDirectories d p).flatMap fun dir => Kind.all.map fun k => dir.child (stem ++ k.suffix) := by
  rw [possibleSpecs, h]; rfl

theorem mem_kinds (k : Kind) : k ∈ Kind.all := by cases k <;> simp [Kind.all]

theorem looksFor_iff {l : Layout} {d : Disk} {p spec : FilePath} {stem : String}
    (h : l.generatedStem? p = some stem) (hs : '/' ∉ stem.toList) :
    l.LooksFor d p spec ↔ ∃ dir ∈ l.specDirectories d p, ∃ k : Kind,
      spec.components = dir.components ++ [.name (stem ++ k.suffix)] := by
  have hc := fun (dir : FilePath) (k : Kind) => components_child (p := dir) (isPlain_spec hs k)
  rw [LooksFor, possibleSpecs_eq h]
  constructor
  · rintro ⟨c, hmem, hsame⟩
    obtain ⟨dir, hdir, hmem⟩ := List.mem_flatMap.1 hmem
    obtain ⟨k, -, rfl⟩ := List.mem_map.1 hmem
    exact ⟨dir, hdir, k, by rw [← hc dir k]; exact (of_decide_eq_true hsame).symm⟩
  · rintro ⟨dir, hdir, k, hspec⟩
    refine ⟨_, List.mem_flatMap.2 ⟨dir, hdir, List.mem_map.2 ⟨k, mem_kinds k, rfl⟩⟩, ?_⟩
    exact decide_eq_true (by rw [hc dir k, hspec])

theorem components_relDirectory (lib : FilePath) {rel : FilePath} {side : String} (hrel : rel.IsInner)
    (hs : IsSide side) : ((lib.child side).join (rel.parent?.getD FilePath.empty)).components =
      lib.components ++ .name side :: rel.components.dropLast := by
  have hjoin : ∀ q : FilePath, q.IsInner → ((lib.child side).join q).components =
      lib.components ++ .name side :: q.components := fun q hq => by
    rw [components_join hq, components_child hs.isPlain, List.append_assoc]; rfl
  cases hp : rel.parent? with
  | some q => rw [Option.getD_some, hjoin q (hrel.of_parent? hp), components_of_parent? hp]
  | none =>
    have hnil : rel.components = [] := by rw [hrel.components, counted_of_parent?_eq_none hp]
    rw [Option.getD_none, hjoin _ isInner_empty, hnil]; rfl

/-- Specs are looked for next to the file and in both directories of its library. -/
theorem mem_specDirectories {l : Layout} {d : Disk} {p : FilePath} {cs : List Component} :
    (∃ dir ∈ l.specDirectories d p, dir.components = cs) ↔
      (∃ q, p.parent? = some q ∧ q.components = cs) ∨
      ∃ lib rel side, l.inLibrary? d p = some (lib, rel) ∧ IsSide side ∧
        cs = lib.components ++ .name side :: rel.components.dropLast := by
  rw [specDirectories]
  cases hi : l.inLibrary? d p with
  | none => simp
  | some found =>
    obtain ⟨lib, rel⟩ := found
    have hrel : rel.IsInner := (inLibrary?_eq_some hi).2.1
    have hheaders := components_relDirectory lib hrel .headers
    have hsources := components_relDirectory lib hrel .sources
    simp only
    constructor
    · rintro ⟨dir, hdir, rfl⟩
      rcases List.mem_append.1 hdir with hdir | hdir
      · rcases List.mem_cons.1 hdir with rfl | hdir
        · exact .inr ⟨lib, rel, _, rfl, .headers, hheaders⟩
        · rw [List.mem_singleton.1 hdir]
          exact .inr ⟨lib, rel, _, rfl, .sources, hsources⟩
      · exact .inl ⟨dir, by simpa using (List.mem_filter.1 hdir).1, rfl⟩
    · rintro (⟨q, hq, rfl⟩ | ⟨lib', rel', side, hi', hside, rfl⟩)
      · by_cases hhidden : ∃ dir ∈ [(lib.child includeDirectory).join
            (rel.parent?.getD FilePath.empty), (lib.child sourceDirectory).join
            (rel.parent?.getD FilePath.empty)], dir.same q = true
        · obtain ⟨dir, hdir, hsame⟩ := hhidden
          exact ⟨dir, List.mem_append_left _ hdir, of_decide_eq_true hsame⟩
        · refine ⟨q, List.mem_append_right _ (List.mem_filter.2 ⟨by simp [hq], ?_⟩), rfl⟩
          rw [Bool.not_eq_true', ← Bool.not_eq_true, List.any_eq_true]
          exact hhidden
      · cases hi'
        cases hside with
        | headers => exact ⟨_, List.mem_append_left _ (by simp), hheaders⟩
        | sources => exact ⟨_, List.mem_append_left _ (by simp), hsources⟩

/-- A file is never traced to a spec above it. -/
theorem LooksFor.length_le {l : Layout} {d : Disk} {p spec : FilePath} {stem : String}
    (h : l.LooksFor d p spec) (hstem : l.generatedStem? p = some stem) (hs : '/' ∉ stem.toList) :
    p.components.length ≤ spec.components.length := by
  obtain ⟨dir, hdir, k, hspec⟩ := (looksFor_iff hstem hs).1 h
  rw [hspec, List.length_append, List.length_singleton]
  rcases mem_specDirectories.1 ⟨dir, hdir, rfl⟩ with ⟨q, hq, hc⟩ | ⟨lib, rel, side, hi, -, hc⟩
  · rw [← hc, components_of_parent? hq, List.length_dropLast]; omega
  · obtain ⟨-, -, side', -, hp⟩ := inLibrary?_eq_some hi
    rw [hc, hp]
    simp only [List.length_append, List.length_cons, List.length_dropLast]; omega

theorem LooksFor.exists_stem {l : Layout} {d : Disk} {p spec : FilePath} (h : l.LooksFor d p spec) :
    ∃ stem, l.generatedStem? p = some stem := by
  obtain ⟨c, hc, -⟩ := h
  cases hs : l.generatedStem? p with
  | some stem => exact ⟨stem, rfl⟩
  | none => rw [possibleSpecs, hs] at hc; cases hc

/-! ### What is known of written files -/

/-- What a written spec path and the header that was written for it have in common. -/
structure IsHeaderOf (l : Layout) (stem : String) (k : Kind) (spec header : FilePath) : Prop where
  stem_ne : stem ≠ ""
  noSlash : '/' ∉ stem.toList
  specName : spec.fileName? = some (stem ++ k.suffix)
  header_eq : header = spec.withFileName (stem ++ l.headerSuffix)
  ends : EndsInName header.pieces

namespace IsHeaderOf

variable {l : Layout} {stem : String} {k : Kind} {spec header : FilePath}

theorem components (h : IsHeaderOf l stem k spec header) : header.components =
    spec.components.dropLast ++ counted (ofString (stem ++ l.headerSuffix)).pieces := by
  have hinner := l.isInner_header h.noSlash h.stem_ne
  rw [h.header_eq, components_withFileName h.specName hinner, hinner.components]

theorem components_of_flat (h : IsHeaderOf l stem k spec header) (hl : l.IsFlat) :
    header.components = spec.components.dropLast ++ [.name (stem ++ l.headerSuffix)] := by
  rw [h.header_eq]; exact components_header hl h.noSlash h.specName

/-- The last piece of a header is the last piece of its name. -/
theorem getLast? (h : IsHeaderOf l stem k spec header) :
    header.pieces.getLast? = (ofString (stem ++ l.headerSuffix)).pieces.getLast? := by
  obtain ⟨first, rest, hof, -⟩ := l.ofString_header h.noSlash h.stem_ne
  rw [h.header_eq]
  exact getLast?_withFileName h.specName (l.isInner_header h.noSlash h.stem_ne).unrooted (by simp [hof])

theorem exists_fileName? (h : IsHeaderOf l stem k spec header) :
    ∃ name, header.fileName? = some name ∧ '/' ∉ name.toList := by
  obtain ⟨name, hlast, hn⟩ := h.ends.exists_fileName?
  exact ⟨name, hn, noSlash_of_mem_ofString (List.mem_of_getLast? (h.getLast? ▸ hlast))⟩

/-- A slash in the extension takes a header below the directory of its spec. -/
theorem length_lt (h : IsHeaderOf l stem k spec header) (hl : ¬ l.IsFlat) :
    spec.components.length < header.components.length := by
  obtain ⟨first, rest, hof, hplain, hrest⟩ := l.ofString_header h.noSlash h.stem_ne
  obtain ⟨last, name, hlast, hname⟩ := h.ends
  rw [h.getLast?, hof] at hlast
  have hspec := components_of_fileName? h.specName
  obtain ⟨init, hinit⟩ : ∃ init, rest = init ++ [last] := by
    rw [List.getLast?_cons, List.getLast?_eq_some_getLast (hrest hl)] at hlast
    exact ⟨rest.dropLast, by
      rw [← Option.some.inj hlast]; exact (List.dropLast_append_getLast (hrest hl)).symm⟩
  rw [h.components, hof, hinit]
  rw [hspec]
  simp only [counted, List.filterMap_cons, componentOf?_of_isPlain hplain, List.filterMap_append,
    hname, List.length_append, List.length_cons, List.length_dropLast]
  simp

end IsHeaderOf

/-! ### Directories of a library -/

theorem ne_side {side name : String} (hs : IsSide side) (h : '.' ∈ name.toList) : name ≠ side := by
  rintro rfl
  cases hs <;> revert h <;> decide

theorem dot_mem_header (l : Layout) (stem : String) : '.' ∈ (stem ++ l.headerSuffix).toList := by
  have hdot : '.' ∈ generatedMark.toList := by decide
  simp only [headerSuffix, String.toList_append, List.mem_append]
  exact .inr (.inl hdot)

theorem dot_mem_source (stem : String) : '.' ∈ (stem ++ sourceSuffix).toList := by
  have hdot : '.' ∈ sourceSuffix.toList := by decide
  rw [String.toList_append, List.mem_append]; exact .inr hdot

/-- A name that is none of the two directories lies below the one that it is in. -/
theorem exists_of_append_cons {α : Type} {xs zs base : List α} {y n : α} (hn : n ≠ y)
    (h : xs ++ y :: zs = base ++ [n]) : ∃ rest, zs = rest ++ [n] ∧ base = xs ++ y :: rest := by
  rcases List.eq_nil_or_concat zs with rfl | ⟨rest, last, rfl⟩
  · exact absurd (List.append_inj_right' h rfl) (by simpa using Ne.symm hn)
  · rw [List.concat_eq_append, ← List.cons_append, ← List.append_assoc] at h
    obtain ⟨hbase, hlast⟩ := List.append_inj' h rfl
    exact ⟨rest, by rw [List.concat_eq_append, hlast], hbase.symm⟩

/-- Two lists that differ in one place differ there only. -/
theorem append_cons_inj {α : Type} {x y a b : α} {zs cs : List α} (hxy : y ≠ x) :
    ∀ {xs as : List α}, xs ++ y :: zs = as ++ b :: cs → xs ++ x :: zs = as ++ a :: cs → xs = as
  | [], [], _, _ => rfl
  | [], w :: as, h, h' => by
    exact absurd ((List.cons.inj h).1.trans (List.cons.inj h').1.symm) hxy
  | u :: xs, [], h, h' => by
    have htail : xs ++ y :: zs = xs ++ x :: zs := (List.cons.inj h).2.trans (List.cons.inj h').2.symm
    exact absurd (List.cons.inj (List.append_cancel_left htail)).1 hxy
  | u :: xs, w :: as, h, h' => by
    rw [append_cons_inj hxy (List.cons.inj h).2 (List.cons.inj h').2, (List.cons.inj h).1]

/-! ### Which of the two is traced -/

/-- The name of a source is read as that of a header with another stem. -/
def TakesForHeader (l : Layout) (p : FilePath) : Prop :=
  l.headerSuffix ≠ sourceSuffix ∧
    ∃ name, p.fileName? = some name ∧ l.headerSuffix.toList <:+ name.toList

/-- A source goes from one directory of a library to the other, where it is in another library. -/
def Strays (l : Layout) (d d' : Disk) (header source : FilePath) : Prop :=
  ∃ lib rel, l.inLibrary? d header = some (lib, rel) ∧
    header.startsWith (lib.child includeDirectory) = true ∧
    ∀ lib', l.library? d' source = some lib' → ¬ lib'.same lib = true

theorem strays_iff {l : Layout} {d d' : Disk} {header source lib rel : FilePath}
    (hi : l.inLibrary? d header = some (lib, rel)) : l.Strays d d' header source ↔
      header.startsWith (lib.child includeDirectory) = true ∧
        ∀ lib', l.library? d' source = some lib' → ¬ lib'.same lib = true := by
  rw [Strays, hi]
  constructor
  · rintro ⟨lib', rel', hi', h⟩
    cases hi'; exact h
  · intro h
    exact ⟨lib, rel, rfl, h⟩

theorem not_strays {l : Layout} {d d' : Disk} {header source : FilePath}
    (hi : l.inLibrary? d header = none) : ¬ l.Strays d d' header source := by
  rintro ⟨lib, rel, hi', -⟩
  rw [hi] at hi'; cases hi'

theorem startsWith_include_iff {p lib : FilePath} {side : String} {rest : List Component}
    (hp : p.components = lib.components ++ .name side :: rest) :
    p.startsWith (lib.child includeDirectory) = true ↔ side = includeDirectory := by
  rw [startsWith, List.isPrefixOf_iff_prefix, components_child IsSide.headers.isPlain, hp,
    List.prefix_append_right_inj]
  simp [List.cons_prefix_cons, eq_comm]

theorem noSlash_of_generatedStem? {l : Layout} {p : FilePath} {name stem : String}
    (h : l.generatedStem? p = some stem) (hn : p.fileName? = some name) (hs : '/' ∉ name.toList) :
    '/' ∉ stem.toList := by
  have := noSlash_stem (l := l) (p := p) fun name' hn' => by rw [hn] at hn'; cases hn'; exact hs
  rwa [h, Option.getD_some] at this

namespace IsHeaderOf

variable {l : Layout} {stem : String} {k : Kind} {spec header : FilePath}

/-- A file with the stem of the spec is traced to it from the directory of the spec only. -/
theorem looksFor_iff (h : IsHeaderOf l stem k spec header) {d : Disk} {p : FilePath}
    (hp : l.generatedStem? p = some stem) : l.LooksFor d p spec ↔
      p.components.dropLast = spec.components.dropLast ∨
      ∃ lib rel side, l.inLibrary? d p = some (lib, rel) ∧ IsSide side ∧
        spec.components.dropLast = lib.components ++ .name side :: rel.components.dropLast := by
  have hspec := components_of_fileName? h.specName
  have hparent : (∃ q, p.parent? = some q ∧ q.components = spec.components.dropLast) ↔
      p.components.dropLast = spec.components.dropLast := by
    obtain ⟨-, name, hn, -⟩ := of_generatedStem? hp
    obtain ⟨q, hq⟩ := exists_parent?_of_fileName? hn
    rw [← components_of_parent? hq, hq]
    simp
  rw [Layout.looksFor_iff hp h.noSlash, ← hparent, ← mem_specDirectories]
  constructor
  · rintro ⟨dir, hdir, j, hj⟩
    exact ⟨dir, hdir, by rw [hj, List.dropLast_concat]⟩
  · rintro ⟨dir, hdir, hc⟩
    exact ⟨dir, hdir, k, by rw [hc, ← hspec]⟩

theorem generatedStem? (h : IsHeaderOf l stem k spec header) (hl : l.IsFlat) :
    l.generatedStem? header = some stem := by
  have hn : header.fileName? = some (stem ++ l.headerSuffix) := by
    rw [fileName?_eq_some, h.components_of_flat hl, List.getLast?_concat]
  exact generatedStem?_eq_some hn h.stem_ne (.inl (cutEnding?_eq_some.2 rfl))

theorem not_looksFor (h : IsHeaderOf l stem k spec header) (hl : ¬ l.IsFlat) {d : Disk}
    {p : FilePath} {name : String} (hlen : p.components.length = header.components.length)
    (hn : p.fileName? = some name) (hs : '/' ∉ name.toList) : ¬ l.LooksFor d p spec := by
  intro hlook
  obtain ⟨stem', hstem'⟩ := hlook.exists_stem
  have hle := hlook.length_le hstem' (noSlash_of_generatedStem? hstem' hn hs)
  have hlt := h.length_lt hl
  omega

/-- A header is traced back to its spec exactly when it is in the directory of the spec. -/
theorem looksFor_header (h : IsHeaderOf l stem k spec header) {d : Disk} {p : FilePath}
    (hp : p.components = header.components) : l.LooksFor d p spec ↔ l.IsFlat := by
  constructor
  · intro hlook
    by_contra hl
    obtain ⟨name, hn, hs⟩ := h.exists_fileName?
    exact h.not_looksFor hl (by rw [hp]) ((fileName?_congr hp).trans hn) hs hlook
  · intro hl
    refine (h.looksFor_iff ((generatedStem?_congr hp).trans (h.generatedStem? hl))).2 (.inl ?_)
    rw [hp, h.components_of_flat hl, List.dropLast_concat]

/-- The stem is read off the name of a source unless the name is taken for that of a header. -/
theorem generatedStem?_source (h : IsHeaderOf l stem k spec header) {p : FilePath}
    (hn : p.fileName? = some (stem ++ sourceSuffix)) (ht : ¬ l.TakesForHeader p) :
    l.generatedStem? p = some stem := by
  refine generatedStem?_eq_some hn h.stem_ne ?_
  by_cases heq : l.headerSuffix = sourceSuffix
  · exact .inl (by rw [heq]; exact cutEnding?_eq_some.2 rfl)
  · exact .inr ⟨cutEnding?_eq_none.2 fun hend => ht ⟨heq, _, hn, hend⟩, cutEnding?_eq_some.2 rfl⟩

theorem not_looksFor_of_takesForHeader (h : IsHeaderOf l stem k spec header) {d : Disk} {p : FilePath}
    (hn : p.fileName? = some (stem ++ sourceSuffix)) (ht : l.TakesForHeader p) :
    ¬ l.LooksFor d p spec := by
  intro hlook
  obtain ⟨hne, name, hn', hend⟩ := ht
  obtain rfl : stem ++ sourceSuffix = name := Option.some.inj (hn.symm.trans hn')
  obtain ⟨stem', hstem'⟩ := hlook.exists_stem
  obtain ⟨-, name', hn'', hcut⟩ := of_generatedStem? hstem'
  obtain rfl : stem ++ sourceSuffix = name' := Option.some.inj (hn.symm.trans hn'')
  have hs : '/' ∉ (stem ++ sourceSuffix).toList := (isPlain_source h.noSlash).noSlash
  obtain ⟨dir, -, j, hj⟩ :=
    (Layout.looksFor_iff hstem' (noSlash_of_generatedStem? hstem' hn hs)).1 hlook
  -- the stem that is read would have to be that of the spec
  have hlast : stem ++ k.suffix = stem' ++ j.suffix := by
    have := fileName?_eq_some.1 h.specName
    rw [hj, List.getLast?_concat] at this
    simpa using this.symm
  obtain rfl := (Kind.append_suffix_inj hlast).1
  rcases hcut with hcut | ⟨hcut, -⟩
  · have happ := cutEnding?_eq_some.1 hcut
    exact hne ((String.append_right_inj stem).1 happ).symm
  · exact cutEnding?_eq_none.1 hcut hend

/-- Where a source is that has gone to the other directory of its library. -/
theorem looksFor_of_headers (h : IsHeaderOf l stem k spec header) {d : Disk} {p lib : FilePath}
    {rest : List Component} (hp : l.generatedStem? p = some stem)
    (hdir : spec.components.dropLast = lib.components ++ .name includeDirectory :: rest)
    (hpc : p.components =
      lib.components ++ .name sourceDirectory :: (rest ++ [.name (stem ++ sourceSuffix)])) :
    l.LooksFor d p spec ↔ ∃ lib', l.library? d p = some lib' ∧ lib'.same lib = true := by
  have hdirs : Component.name sourceDirectory ≠ .name includeDirectory := by decide
  have hpd : p.components.dropLast = lib.components ++ .name sourceDirectory :: rest := by
    rw [hpc, ← List.cons_append, ← List.append_assoc, List.dropLast_concat]
  rw [h.looksFor_iff hp, hpd, hdir]
  constructor
  · rintro (hbeside | ⟨lib', rel, side, hi, -, hside⟩)
    · exact absurd (List.cons.inj (List.append_cancel_left hbeside)).1 hdirs
    · obtain ⟨hlib, -, side', hside', hp'⟩ := inLibrary?_eq_some hi
      have hname : Component.name (stem ++ sourceSuffix) ≠ .name side' :=
        fun h0 => ne_side hside' (dot_mem_source stem) (Component.name.inj h0)
      obtain ⟨rest', hrel, hdir'⟩ := exists_of_append_cons hname
        (hp'.symm.trans (by rw [hpc, ← List.cons_append, ← List.append_assoc]))
      rw [hrel, List.dropLast_concat] at hside
      exact ⟨lib', hlib, decide_eq_true (append_cons_inj hdirs hdir' hside).symm⟩
  · rintro ⟨lib', hlib, hsame⟩
    have hsame' : lib'.components = lib.components := of_decide_eq_true hsame
    obtain ⟨rel, hi, hrel⟩ := exists_inLibrary? hlib .sources (by rw [hpc, hsame'])
    exact .inr ⟨lib', rel, includeDirectory, hi, .headers, by
      rw [hrel, List.dropLast_concat, hsame']⟩

theorem looksFor_of_beside (h : IsHeaderOf l stem k spec header) {d : Disk} {p : FilePath}
    (hstem : l.generatedStem? p = some stem)
    (hp : p.components = spec.components.dropLast ++ [.name (stem ++ sourceSuffix)]) :
    l.LooksFor d p spec :=
  (h.looksFor_iff hstem).2 (.inl (by rw [hp, List.dropLast_concat]))

/-- A source that is named after the stem is traced back to its spec exactly when it is still in the
library of its header. -/
theorem looksFor_mirrored (h : IsHeaderOf l stem k spec header) (hl : l.IsFlat) {d d' : Disk}
    {p : FilePath} (hstem : l.generatedStem? p = some stem)
    (hp : p.components = (l.mirrored d header).dropLast ++ [.name (stem ++ sourceSuffix)]) :
    l.LooksFor d' p spec ↔ ¬ l.Strays d d' header p := by
  have hheader := h.components_of_flat hl
  rw [mirrored] at hp
  cases hi : l.inLibrary? d header with
  | none =>
    rw [hi, hheader, List.dropLast_concat] at hp
    exact iff_of_true (h.looksFor_of_beside hstem hp) (not_strays hi)
  | some found =>
    obtain ⟨lib, rel⟩ := found
    obtain ⟨-, -, side, hside, hsplit⟩ := inLibrary?_eq_some hi
    have hne : Component.name (stem ++ l.headerSuffix) ≠ .name side :=
      fun h0 => ne_side hside (dot_mem_header l stem) (Component.name.inj h0)
    obtain ⟨rest, hrel, hdir⟩ := exists_of_append_cons hne (hsplit.symm.trans hheader)
    simp only [hi, hrel] at hp
    rw [← List.cons_append, ← List.append_assoc, List.dropLast_concat] at hp
    rw [strays_iff hi, startsWith_include_iff hsplit]
    cases hside with
    | headers =>
      rw [h.looksFor_of_headers hstem hdir (by rw [hp, List.append_assoc]; rfl)]
      simp
    | sources =>
      have hdirs : sourceDirectory ≠ includeDirectory := by decide
      rw [← hdir] at hp
      simp [hdirs, h.looksFor_of_beside hstem hp]

/-- A source is traced back to its spec exactly when no slash takes its header away, its name is not
taken for that of a header, and it is still in the library of its header. -/
theorem looksFor_source (h : IsHeaderOf l stem k spec header) {d d' : Disk} {p : FilePath}
    (hp : p.components = (l.sourcePath d header).components) : l.LooksFor d' p spec ↔
      l.IsFlat ∧ ¬ l.TakesForHeader p ∧ ¬ l.Strays d d' header p := by
  obtain ⟨name, hname, hs⟩ := h.exists_fileName?
  have hsource := components_sourcePath (l := l) (d := d) hname hs
  rw [← hp] at hsource
  have hpn : p.fileName? = some ((l.generatedStem? header).getD "" ++ sourceSuffix) := by
    rw [fileName?_eq_some, hsource, List.getLast?_concat]
  by_cases hl : l.IsFlat
  · rw [h.generatedStem? hl, Option.getD_some] at hsource hpn
    by_cases ht : l.TakesForHeader p
    · simp [ht, h.not_looksFor_of_takesForHeader hpn ht]
    · simp [hl, ht, h.looksFor_mirrored hl (h.generatedStem?_source hpn ht) hsource]
  · have hlen : p.components.length = header.components.length := by
      have hpos : 0 < header.components.length := Nat.lt_of_le_of_lt (Nat.zero_le _) (h.length_lt hl)
      rw [hsource, List.length_append, List.length_dropLast, length_mirrored, List.length_singleton]
      omega
    have hsrc : '/' ∉ ((l.generatedStem? header).getD "" ++ sourceSuffix).toList := by
      refine (isPlain_source (noSlash_stem ?_)).noSlash
      intro name' hn'
      rw [hname] at hn'; cases hn'; exact hs
    simp [hl, h.not_looksFor hl hlen hpn hsrc]

end IsHeaderOf

theorem exists_isHeaderOf {l : Layout} {spec header : FilePath} (hw : spec.IsWritten)
    (h : l.headerPath? spec = some header) (hends : EndsInName header.pieces) :
    ∃ stem k, l.IsHeaderOf stem k spec header := by
  obtain ⟨k, stem, hne, -, hn, heq⟩ := headerPath?_eq_some h
  have hs : '/' ∉ (stem ++ k.suffix).toList := hw _ (mem_pieces_of_fileName? hn).1
  rw [String.toList_append, List.mem_append, not_or] at hs
  exact ⟨stem, k, hne, hs.1, hn, heq, hends⟩

theorem endsInName_possibleSpecs {l : Layout} {d : Disk} {p c : FilePath} {stem : String}
    (hstem : l.generatedStem? p = some stem) (hs : '/' ∉ stem.toList)
    (hc : c ∈ l.possibleSpecs d p) : EndsInName c.pieces := by
  rw [possibleSpecs_eq hstem] at hc
  obtain ⟨dir, -, hc⟩ := List.mem_flatMap.1 hc
  obtain ⟨k, -, rfl⟩ := List.mem_map.1 hc
  have hplain := isPlain_spec hs k
  have hof := ofString_of_isPlain hplain
  obtain ⟨init, hinit⟩ := suffix_join dir (q := ofString (stem ++ k.suffix)) (by rw [hof])
    (by rw [hof]; simp)
  rw [FilePath.child, ← hinit, hof]
  exact endsInName_concat (componentOf?_of_isPlain hplain) init

/-- A file is not outdated while a spec is there that it is traced to, unless the path at which that
spec is looked for is too long to be followed. -/
theorem exists_of_mem_outdated {l : Layout} {d : Disk} {p spec : FilePath} {name : String}
    (hn : p.fileName? = some name) (hs : '/' ∉ name.toList) (hspec : d.isFile spec = true)
    (hlook : l.LooksFor d p spec) (hp : p ∈ l.outdated d) :
    ∃ c ∈ l.possibleSpecs d p, c.same spec = true ∧ isPath c = false := by
  obtain ⟨stem, hstem⟩ := hlook.exists_stem
  obtain ⟨c, hc, hsame⟩ := hlook
  have hout : l.isOutdated d p = true := (List.mem_filter.1 hp).2
  rw [isOutdated, Bool.not_eq_true', ← Bool.not_eq_true, List.any_eq_true] at hout
  refine ⟨c, hc, hsame, ?_⟩
  by_contra hpath
  have hends := endsInName_possibleSpecs hstem (noSlash_of_generatedStem? hstem hn hs) hc
  have hcomp : spec.components = c.components := (of_decide_eq_true hsame).symm
  exact hout ⟨c, hc, isFile_congr hcomp hends (by simpa using hpath) hspec⟩

/-- A file that is not traced to a spec is outdated unless another spec is there for it. -/
theorem mem_outdated_iff {l : Layout} {d : Disk} {p spec : FilePath} (hp : p ∈ l.generatedFiles d)
    (hlook : ¬ l.LooksFor d p spec) : p ∈ l.outdated d ↔
      ∀ c ∈ l.possibleSpecs d p, d.isFile c = true → c.same spec = true := by
  rw [outdated, List.mem_filter, isOutdated, Bool.not_eq_true', ← Bool.not_eq_true, List.any_eq_true]
  constructor
  · rintro ⟨-, hnone⟩ c hc hfile
    exact absurd ⟨c, hc, hfile⟩ hnone
  · rintro hall
    exact ⟨hp, fun ⟨c, hc, hfile⟩ => hlook ⟨c, hc, hall c hc hfile⟩⟩

/-- When a header and a source that have just been written are listed as outdated though their spec
is there: a header when its extension has a slash in it; a source also when its name is taken for
that of a header, or when it has gone into a library of its own. -/
theorem outdated_of_generated {g : Generator} {d d' : Disk} {spec : FilePath} {files : Generated}
    (hw : spec.IsWritten) (hgen : g.generate d spec = (d', .generated files))
    (hspec : d'.isFile spec = true) :
    (∀ p, p.same files.header = true → (g.layout.LooksFor d' p spec ↔ g.layout.IsFlat)) ∧
    (∀ p, p.same files.source = true → (g.layout.LooksFor d' p spec ↔
      g.layout.IsFlat ∧ ¬ g.layout.TakesForHeader p ∧ ¬ g.layout.Strays d d' files.header p)) ∧
    ∀ p ∈ g.layout.generatedFiles d', p.same files.header = true ∨ p.same files.source = true →
      (g.layout.LooksFor d' p spec → p ∈ g.layout.outdated d' →
        ∃ c ∈ g.layout.possibleSpecs d' p, c.same spec = true ∧ isPath c = false) ∧
      (¬ g.layout.LooksFor d' p spec → (p ∈ g.layout.outdated d' ↔
        ∀ c ∈ g.layout.possibleSpecs d' p, d'.isFile c = true → c.same spec = true)) := by
  obtain ⟨w, hdraft, hwrites⟩ := Generator.generate_generated hgen
  obtain ⟨hwspec, hheader, -⟩ := draft_eq_ok hdraft
  cases hwrites with
  | both hsave =>
    obtain ⟨stem, k, h⟩ := exists_isHeaderOf hw hheader (endsInName_of_save hsave)
    obtain ⟨name, hn, hs⟩ := h.exists_fileName?
    refine ⟨fun p hp => h.looksFor_header (of_decide_eq_true hp),
      fun p hp => h.looksFor_source (of_decide_eq_true hp), fun p hp hpath => ?_⟩
    have hname : ∃ name, p.fileName? = some name ∧ '/' ∉ name.toList := by
      rcases hpath with hpath | hpath
      · exact ⟨name, by rw [fileName?_congr (of_decide_eq_true hpath), hn], hs⟩
      · have hstem : '/' ∉ ((g.layout.generatedStem? w.header).getD "").toList :=
          noSlash_stem fun name' hn' => by rw [hn] at hn'; cases hn'; exact hs
        refine ⟨_, ?_, (isPlain_source hstem).noSlash⟩
        rw [fileName?_congr (of_decide_eq_true hpath), fileName?_eq_some,
          components_sourcePath hn hs, List.getLast?_concat]
    obtain ⟨name', hn', hs'⟩ := hname
    exact ⟨exists_of_mem_outdated hn' hs' hspec, mem_outdated_iff hp⟩

/-- A library whose sources hold another library. -/
def nestedLibraries : Disk := furnish ["r/lib/src/x/include", "r/lib/src/x/src"]
  [("r/lib/include/x/foo.struct.toml", emptyStruct)]

/-- The source of a spec in `include/x` goes into `src/x`, and there only `src/x/include` and
`src/x/src` are searched for its spec. -/
theorem outdated_nestedLibraries :
    let g := sampleGenerator
    let spec := ofString "r/lib/include/x/foo.struct.toml"
    let source := ofString "r/lib/src/x/foo.dtg.cc"
    ∃ d', g.generate nestedLibraries spec =
        (d', .generated ⟨spec, ofString "r/lib/include/x/foo.dtg.h", source⟩) ∧
      d'.isFile spec = true ∧ g.layout.outdated d' = [source] ∧ ¬ g.layout.LooksFor d' source spec ∧
      (source ∈ g.layout.outdated d' ↔
        ∀ c ∈ g.layout.possibleSpecs d' source, d'.isFile c = true → c.same spec = true) := by
  intro g spec source
  let left := (g.generate nestedLibraries spec).1
  obtain ⟨houtcome, hspec, houtdated, hlook⟩ : (g.generate nestedLibraries spec).2 =
        .generated ⟨spec, ofString "r/lib/include/x/foo.dtg.h", source⟩ ∧
      left.isFile spec = true ∧ g.layout.outdated left = [source] ∧
      ¬ g.layout.LooksFor left source spec := by
    unfold LooksFor; decide +kernel
  have hgen := eq_mk_of_snd houtcome
  have hsource : source ∈ g.layout.generatedFiles left := by
    have hlisted : source ∈ g.layout.outdated left := by rw [houtdated]; exact List.mem_singleton_self _
    exact (List.mem_filter.1 hlisted).1
  have hall := (outdated_of_generated (isWritten_ofString _) hgen hspec).2.2 source hsource
    (.inr (by decide))
  exact ⟨left, hgen, hspec, houtdated, hlook, hall.2 hlook⟩

end Layout

end TypeGen.Project
