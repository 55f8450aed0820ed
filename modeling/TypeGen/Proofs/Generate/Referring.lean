import TypeGen.Proofs.Generate.Checking
import TypeGen.Proofs.Store.Visiting

/-!
What generated sources refer to. Every header that is there can be included, and the path by which it
is leads to it: from a side of the library whose side it is on, with the source as far below the side
of the sources, and from its own directory anywhere else.
-/

namespace TypeGen.Project

open TypeGen.Store TypeGen.Store.FilePath

namespace Layout

/-- Whether a path is on one of the two sides of the library around it. -/
def OnSide (l : Layout) (d : Disk) (p : FilePath) : Prop :=
  ∃ lib side, l.library? d p = some lib ∧ IsSide side ∧ p.startsWith (lib.child side) = true

/-- From where a path leads to a header. -/
inductive Refers (l : Layout) (d : Disk) (header path : FilePath) : Prop where
  /-- The source of the header is where the path leads to on the side of the sources, in the same
  directory. -/
  | fromSide {lib dir place : FilePath} {side : String} (library : l.library? d header = some lib)
      (isSide : IsSide side) (leads : ((lib.child side).join path).same header = true)
      (below : (l.sourcePath d header).startsWith (lib.child sourceDirectory) = true)
      (directory : path.parent? = some dir)
      (source : (l.sourcePath d header).parent? = some place)
      (beside : place.same ((lib.child sourceDirectory).join dir) = true)
  | fromDirectory {dir : FilePath} (outside : ¬ l.OnSide d header)
      (directory : header.parent? = some dir) (leads : (dir.join path).same header = true)

variable {l : Layout} {d : Disk} {header path lib rel : FilePath}

theorem onSide_iff : l.OnSide d header ↔ (l.inLibrary? d header).isSome = true := by
  constructor
  · rintro ⟨lib, side, hlib, hside, hstart⟩
    obtain ⟨cs, hcs⟩ := List.isPrefixOf_iff_prefix.1 hstart
    rw [components_child hside.isPlain, List.append_assoc] at hcs
    obtain ⟨rel, hrel, -⟩ := exists_inLibrary? hlib hside hcs.symm
    rw [hrel]; rfl
  · intro h
    obtain ⟨⟨lib, rel⟩, hi⟩ := Option.isSome_iff_exists.1 h
    obtain ⟨hlib, -, side, hside, hp⟩ := inLibrary?_eq_some hi
    refine ⟨lib, side, hlib, hside, List.isPrefixOf_iff_prefix.2 ⟨rel.components, ?_⟩⟩
    rw [components_child hside.isPlain, hp, List.append_assoc]; rfl

/-- A header is included by its path behind the side of its library, or by its name. -/
theorem includePath_cases (h : l.includePath d header = .ok path) :
    (∃ lib, l.inLibrary? d header = some (lib, path)) ∨
      l.inLibrary? d header = none ∧ path = FilePath.ofString (header.fileName?.getD "") := by
  rw [includePath] at h
  cases hi : l.inLibrary? d header with
  | none =>
    simp only [hi] at h
    split at h
    · exact .inr ⟨rfl, (Except.ok.inj h).symm⟩
    · cases h
  | some found =>
    obtain ⟨lib, rel⟩ := found
    simp only [hi] at h
    split at h
    · exact .inl ⟨lib, by rw [Except.ok.inj h]⟩
    · cases h

/-- A path behind a side of a library leads from there to where it was found, and its directory to
where the source is. -/
theorem refers_of_inLibrary? (hi : l.inLibrary? d header = some (lib, rel)) (hw : header.IsWritten)
    (hf : d.isFile header = true) : l.Refers d header rel := by
  obtain ⟨hlib, hrel, side, hside, hp⟩ := inLibrary?_eq_some hi
  obtain ⟨name, hlast, hname⟩ := (endsInName_of_isFile hf).exists_fileName?
  have hslash : '/' ∉ name.toList := hw name (List.mem_of_getLast? hlast)
  have hne : rel.components ≠ [] := components_ne_nil_of_isFile hi hf
  have hrelname : rel.fileName? = some name := by
    rw [fileName?_eq_some] at hname ⊢
    rwa [hp, List.append_cons, List.getLast?_append_of_ne_nil _ hne] at hname
  obtain ⟨dir, hdir⟩ := exists_parent?_of_fileName? hrelname
  have hinner : dir.IsInner := hrel.of_parent? hdir
  have hsource : (l.sourcePath d header).components = lib.components ++ .name sourceDirectory ::
      (rel.components.dropLast ++ [.name ((l.generatedStem? header).getD "" ++ sourceSuffix)]) := by
    rw [components_sourcePath hname hslash, mirrored, hi]
    simp [List.dropLast_append_of_ne_nil, List.dropLast_cons_of_ne_nil hne]
  have hsourcename : (l.sourcePath d header).fileName? =
      some ((l.generatedStem? header).getD "" ++ sourceSuffix) := by
    rw [fileName?_eq_some, hsource, List.append_cons, ← List.append_assoc, List.getLast?_concat]
  obtain ⟨place, hplace⟩ := exists_parent?_of_fileName? hsourcename
  have hsources := components_child (p := lib) IsSide.sources.isPlain
  refine .fromSide hlib hside (decide_eq_true ?_) (List.isPrefixOf_iff_prefix.2 ?_) hdir hplace
    (decide_eq_true ?_)
  · rw [components_join hrel, components_child hside.isPlain, hp, List.append_assoc]; rfl
  · rw [hsources, hsource]; exact ⟨_, List.append_assoc ..⟩
  · rw [components_of_parent? hplace, components_join hinner, components_of_parent? hdir, hsources,
      hsource, List.append_cons, ← List.append_assoc, List.dropLast_concat]

/-- Outside of the sides of a library the name of a header leads to it from its directory. -/
theorem refers_name (hi : l.inLibrary? d header = none) (hw : header.IsWritten)
    (hf : d.isFile header = true) : (FilePath.ofString (header.fileName?.getD "")).rooted = false ∧
      l.Refers d header (FilePath.ofString (header.fileName?.getD "")) := by
  obtain ⟨name, -, hname⟩ := (endsInName_of_isFile hf).exists_fileName?
  have hplain : IsPlain name := hw.isPlain (List.mem_of_getLast? (fileName?_eq_some.1 hname))
  obtain ⟨dir, hdir⟩ := exists_parent?_of_fileName? hname
  rw [hname, Option.getD_some]
  refine ⟨(isInner_of_isPlain hplain).unrooted,
    .fromDirectory (fun hon => ?_) hdir (decide_eq_true ?_)⟩
  · rw [onSide_iff, hi] at hon; cases hon
  · change (dir.child name).components = _
    rw [components_child hplain, components_of_parent? hdir, ← components_of_fileName? hname]

end Layout

theorem Generator.ne_missingHeader (g : Generator) (d : Disk) (spec : FilePath)
    (missing : MissingHeader) : (g.generate d spec).2 ≠ .failed (.missingHeader missing) := by
  intro h
  rcases g.generate_eq_eager_or d spec with he | ⟨_, _, -, -, ⟨-, he⟩ | ⟨_, -, he⟩⟩
  · rw [he, eager_failed_iff] at h
    obtain ⟨_, -, hcause⟩ := Layout.draft_eq_error.1 h
    cases hcause
  · rw [he] at h; cases h
  · rw [he] at h; cases h

/-- A header that is there can be included. The path by which it is leads to it from a side of its
library, and its source is in the same directory on the side of the sources; on no side of a library
the path leads to it from its own directory. So no spec fails for want of a header. -/
theorem headers_referred (g : Generator) :
    (∀ (d : Disk) (header : FilePath), header.IsWritten → d.isFile header = true →
      ∃ path, g.layout.includePath d header = .ok path ∧ path.rooted = false ∧
        g.layout.Refers d header path) ∧
    ∀ d spec missing, (g.generate d spec).2 ≠ .failed (.missingHeader missing) := by
  refine ⟨fun d header hw hf => ?_, g.ne_missingHeader⟩
  obtain ⟨path, hpath⟩ := g.layout.includePath_of_isFile hf
  refine ⟨path, hpath, ?_⟩
  rcases Layout.includePath_cases hpath with ⟨lib, hi⟩ | ⟨hi, rfl⟩
  · exact ⟨(Layout.inLibrary?_eq_some hi).2.1.unrooted, Layout.refers_of_inLibrary? hi hw hf⟩
  · exact Layout.refers_name hi hw hf

/-- A library whose headers have directories of its sides' names in them. -/
def nestedSides : Disk :=
  furnish ["r/lib/include/src/x", "r/lib/src"] [("r/lib/include/src/x/foo.dtg.h", "")]

/-- The outer library counts, as the inner directory has no headers. -/
theorem headers_referred_nestedSides :
    ∃ path, sampleGenerator.layout.includePath nestedSides
        (FilePath.ofString "r/lib/include/src/x/foo.dtg.h") = .ok path ∧
      path.text = "src/x/foo.dtg.h" ∧ sampleGenerator.layout.Refers nestedSides
        (FilePath.ofString "r/lib/include/src/x/foo.dtg.h") path := by
  obtain ⟨path, hpath, -, hrefers⟩ := (headers_referred sampleGenerator).1 nestedSides
    (FilePath.ofString "r/lib/include/src/x/foo.dtg.h") (isWritten_ofString _) (by decide +kernel)
  have hfound : (sampleGenerator.layout.includePath nestedSides
      (FilePath.ofString "r/lib/include/src/x/foo.dtg.h")).toOption =
        some (FilePath.ofString "src/x/foo.dtg.h") := by decide +kernel
  rw [hpath] at hfound
  refine ⟨path, hpath, ?_, hrefers⟩
  rw [Option.some.inj hfound]; decide

end TypeGen.Project
