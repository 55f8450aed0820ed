import TypeGen.Proofs.Layout.Settling
import TypeGen.Proofs.Path.Respelling

/-!
Layouts and the spelling of paths. However a path is spelled, it is in the same library, its source
goes to the same place and it is included by the same text, as far as all that is looked up on the
way can be followed.
-/

namespace TypeGen.Project.Layout

open TypeGen.Spec TypeGen.Store TypeGen.Store.FilePath

/-! ### Paths that are looked up -/

/-- Both sides of every directory around a path can be looked for. -/
def SeesSides (p : FilePath) : Prop :=
  ∀ dir ∈ p.ancestors.drop 1, ∀ side, IsSide side → isPath (dir.child side) = true

/-- A path can be followed with another name at its end that is no longer. -/
theorem isPath_concat_of_le {r : Bool} {ps : List String} {long short : String}
    (h : isPath ⟨r, ps ++ [long]⟩ = true) (hle : short.utf8ByteSize ≤ long.utf8ByteSize)
    (hzero : '\x00' ∉ short.toList) : isPath ⟨r, ps ++ [short]⟩ = true := by
  rw [isPath, Bool.and_eq_true, decide_eq_true_eq, Bool.not_eq_true', List.any_eq_false] at h ⊢
  refine ⟨Nat.lt_of_le_of_lt ?_ h.1, fun piece hpiece => ?_⟩
  · simp only [FilePath.text, String.utf8ByteSize_append, utf8ByteSize_joinWith, List.map_append,
      List.sum_append, List.length_append, List.map_cons, List.map_nil, List.sum_cons, List.sum_nil,
      List.length_cons, List.length_nil]
    omega
  · rcases List.mem_append.1 hpiece with hp | hp
    · exact h.2 piece (List.mem_append_left _ hp)
    · rw [List.mem_singleton.1 hp]
      simpa using hzero

theorem IsSide.zero_notMem {side : String} (h : IsSide side) : '\x00' ∉ side.toList := by
  cases h <;> decide

/-- The name of a spec is longer than those of the sides. -/
theorem IsSide.le_spec {side : String} (h : IsSide side) (stem : String) (k : Kind) :
    side.utf8ByteSize ≤ (stem ++ k.suffix).utf8ByteSize := by
  have hle : side.utf8ByteSize ≤ k.suffix.utf8ByteSize := by cases h <;> cases k <;> decide
  rw [String.utf8ByteSize_append]
  omega

/-- What is around a header next to its spec is a part of the spec's directory as it is written. -/
theorem IsHeaderOf.prefix_of_mem_ancestors {l : Layout} {stem : String} {k : Kind}
    {spec header parent dir : FilePath} (h : IsHeaderOf l stem k spec header) (hl : l.IsFlat)
    (hparent : spec.parent? = some parent) (hdir : dir ∈ header.ancestors.drop 1) :
    dir.rooted = spec.rooted ∧ dir.pieces <+: parent.pieces := by
  have hheader : header = parent.child (stem ++ l.headerSuffix) := by
    rw [h.header_eq, withFileName, h.specName, hparent]
  obtain ⟨above, habove, hpre, -⟩ := exists_child_eq (Layout.isPlain_header hl h.noSlash) parent
  rw [habove] at hheader
  obtain ⟨hrooted, hpieces⟩ := pieces_of_mem_ancestors hdir
  have hlen := (FilePath.prefix_of_mem_ancestors hdir).length_le
  have hrootedHeader : header.rooted = parent.rooted := by rw [hheader]
  have hpiecesHeader : header.pieces = above ++ [stem ++ l.headerSuffix] := by rw [hheader]
  refine ⟨hrooted.trans (hrootedHeader.trans (rooted_of_parent? hparent)), ?_⟩
  rw [hpiecesHeader] at hpieces
  rcases List.prefix_concat_iff.1 hpieces with heq | hlt
  · -- what is around the header does not have its name
    have hsame : dir.components = header.components := by
      simp only [FilePath.components, FilePath.head?, hrooted, heq, hpiecesHeader]
    rw [hsame, List.length_dropLast, h.components_of_flat hl, List.length_append,
      List.length_singleton] at hlen
    omega
  · exact hlt.trans hpre

/-- The sides around a header next to its spec can be looked for if the spec can. -/
theorem IsHeaderOf.seesSides {l : Layout} {stem : String} {k : Kind} {spec header : FilePath}
    (h : IsHeaderOf l stem k spec header) (hl : l.IsFlat) (hpath : isPath spec = true) :
    SeesSides header := by
  intro dir hdir side hside
  obtain ⟨parent, hparent⟩ := exists_parent?_of_fileName? h.specName
  obtain ⟨hrooted, hpieces⟩ := h.prefix_of_mem_ancestors hl hparent hdir
  obtain ⟨above, habove, hpre, -⟩ := exists_child_eq hside.isPlain dir
  have hspec : (parent.pieces ++ [stem ++ k.suffix]).Sublist spec.pieces := by
    have hwithin : parent.pieces <+: spec.pieces ++ [] := by
      rw [List.append_nil]; exact prefix_of_parent? hparent
    exact concat_sublist_of_counted hwithin (counted_of_parent? h.specName hparent)
  have hsub : (above ++ [stem ++ k.suffix]).Sublist spec.pieces :=
    ((hpre.trans hpieces).sublist.append_right _).trans hspec
  have hlong : isPath ⟨spec.rooted, above ++ [stem ++ k.suffix]⟩ = true :=
    isPath_of_sublist (p := spec) rfl hsub hpath
  rw [habove, hrooted]
  exact isPath_concat_of_le hlong (hside.le_spec stem k) hside.zero_notMem

/-! ### Libraries -/

variable {l : Layout} {d e : Disk} {p q : FilePath}

/-- Two disks that are seen from one place and have the same directories. -/
structure SameDirectories (d e : Disk) : Prop where
  noLinks : d.tree.NoLinks
  noLinks' : e.tree.NoLinks
  home : e.home = d.home
  grows : d.tree.Grows e.tree
  grows' : e.tree.Grows d.tree

theorem SameDirectories.symm (h : SameDirectories d e) : SameDirectories e d :=
  ⟨h.noLinks', h.noLinks, h.home.symm, h.grows', h.grows⟩

theorem SameDirectories.isDirectory (h : SameDirectories d e) (hpq : p.Respells q)
    (hne : q.components ≠ []) (hq : isPath q = true) (hp : d.isDirectory p = true) :
    e.isDirectory q = true := by
  obtain ⟨dir, hloc⟩ := Disk.isDirectory_iff.1 hp
  obtain ⟨-, -, hway⟩ := (Disk.locate_eq_directory h.noLinks true).1 hloc
  have hstart : e.startOf q = d.startOf p := by
    rw [Disk.startOf, Disk.startOf, rooted_congr hpq, h.home]
  refine Disk.isDirectory_iff.2 ⟨dir, (Disk.locate_eq_directory h.noLinks' true).2 ⟨hq, ?_, ?_⟩⟩
  · by_contra hno
    rw [not_or] at hno
    exact hne (by simp [components_eq, head?, counted, not_not.1 hno.1, hno.2])
  · rw [hstart, ← counted_congr hpq]
    exact hway.grows h.grows

theorem find?_takeWhile_respelled {P Q P' Q' : FilePath → Bool} : ∀ {ps qs : List FilePath},
    List.Forall₂ (fun a b => a.Respells b ∧ P a = P' b ∧ Q a = Q' b) ps qs →
    ((ps.takeWhile P).find? Q).map components = ((qs.takeWhile P').find? Q').map components
  | [], [], _ => rfl
  | a :: ps, b :: qs, .cons ⟨hab, hP, hQ⟩ h => by
    have ih := find?_takeWhile_respelled h
    rw [List.takeWhile_cons, List.takeWhile_cons, hP]
    split
    · rw [List.find?_cons, List.find?_cons, hQ]
      split
      · rw [Option.map_some, Option.map_some, hab]
      · exact ih
    · rfl

theorem library?_respelled (h : SameDirectories d e) (hpq : p.Respells q) (hp : SeesSides p)
    (hq : SeesSides q) : (l.library? d p).map components = (l.library? e q).map components := by
  have haround := List.forall₂_drop 1 (respells_ancestors hpq)
  rw [List.forall₂_iff_zip] at haround
  rw [library?, library?]
  refine find?_takeWhile_respelled (List.forall₂_iff_zip.2 ⟨haround.1, fun {a b} hab => ?_⟩)
  obtain ⟨ha, hb⟩ := List.of_mem_zip hab
  have hsame := haround.2 hab
  have hside : ∀ side, IsSide side → d.isDirectory (a.child side) = e.isDirectory (b.child side) := by
    intro side hs
    have hchild : (a.child side).Respells (b.child side) := by
      rw [Respells, components_child hs.isPlain, components_child hs.isPlain, hsame]
    have hne : ∀ x : FilePath, (x.child side).components ≠ [] := fun x => by
      rw [components_child hs.isPlain]; simp
    exact Bool.eq_iff_iff.2 ⟨h.isDirectory hchild (hne b) (hq b hb side hs),
      h.symm.isDirectory hchild.symm (hne a) (hp a ha side hs)⟩
  refine ⟨hsame, ?_, ?_⟩
  · rw [startsWith, startsWith, hsame]
  · rw [hside _ .headers, hside _ .sources]

/-! ### What depends on the library -/

theorem inLibrary?_respelled (h : (l.library? d p).map components = (l.library? e q).map components)
    (hpq : p.Respells q) : (l.inLibrary? d p).map (fun f => (f.1.components, f.2.components)) =
      (l.inLibrary? e q).map fun f => (f.1.components, f.2.components) := by
  rw [inLibrary?, inLibrary?]
  cases hlib : l.library? d p with
  | none =>
    rw [hlib] at h
    rw [Option.map_eq_none_iff.1 h.symm]
    rfl
  | some lib =>
    cases hlib' : l.library? e q with
    | none => rw [hlib, hlib'] at h; cases h
    | some lib' =>
      rw [hlib, hlib'] at h
      have hsame : lib.Respells lib' := Option.some.inj h
      have hrel : ∀ side, IsSide side → (p.relativeTo? (lib.child side)).map components =
          (q.relativeTo? (lib'.child side)).map components := fun side hs =>
        relativeTo?_respelled hpq (by
          rw [Respells, components_child hs.isPlain, components_child hs.isPlain, hsame])
      have hheaders := hrel _ .headers
      have hsources := hrel _ .sources
      cases h₁ : p.relativeTo? (lib.child includeDirectory) <;>
        cases h₂ : q.relativeTo? (lib'.child includeDirectory) <;>
        cases h₃ : p.relativeTo? (lib.child sourceDirectory) <;>
        cases h₄ : q.relativeTo? (lib'.child sourceDirectory) <;>
        simp_all [Respells]

theorem mirrored_respelled (h : (l.library? d p).map components = (l.library? e q).map components)
    (hpq : p.Respells q) : l.mirrored d p = l.mirrored e q := by
  have hin := inLibrary?_respelled h hpq
  rw [mirrored, mirrored]
  cases hi : l.inLibrary? d p <;> cases hi' : l.inLibrary? e q <;> simp_all [Respells]

/-- However a header is spelled, its source goes to the same place. -/
theorem sourcePath_respelled (h : (l.library? d p).map components = (l.library? e q).map components)
    (hpq : p.Respells q) {name : String} (hn : p.fileName? = some name) (hs : '/' ∉ name.toList) :
    (l.sourcePath d p).Respells (l.sourcePath e q) := by
  have hn' : q.fileName? = some name := (fileName?_congr hpq).symm.trans hn
  rw [Respells, components_sourcePath hn hs, components_sourcePath hn' hs, mirrored_respelled h hpq,
    generatedStem?_congr hpq]

/-- The source of a header with an absolute path has one, too. -/
theorem rooted_sourcePath (hr : p.rooted = true) {name : String} (hn : p.fileName? = some name)
    (hs : '/' ∉ name.toList) : (l.sourcePath d p).rooted = true := by
  have hmem : Component.root ∈ (l.mirrored d p).dropLast := by
    rw [mirrored]
    split
    next lib rel hi =>
      have hlib := (around_of_library? (inLibrary?_eq_some hi).1).1
      rw [List.dropLast_append_of_ne_nil (List.cons_ne_nil _ rel.components)]
      exact List.mem_append_left _ (rooted_iff.1 (hlib.trans hr))
    next =>
      have hroot := rooted_iff.1 hr
      rw [components_of_fileName? hn, List.mem_append] at hroot
      exact hroot.resolve_right (by simp)
  rw [rooted_iff, components_sourcePath hn hs]
  exact List.mem_append_left _ hmem

theorem endsInName_sourcePath {name : String} (hn : p.fileName? = some name) (hs : '/' ∉ name.toList) :
    EndsInName (l.sourcePath d p).pieces :=
  ⟨_, _, getLast?_sourcePath hn hs, componentOf?_of_isPlain (isPlain_sourceName hn hs)⟩

/-- However a header is spelled, it is included by the same text. -/
theorem includePath_respelled (h : (l.library? d p).map components = (l.library? e q).map components)
    (hpq : p.Respells q) {a b : FilePath} (ha : l.includePath d p = .ok a)
    (hb : l.includePath e q = .ok b) : a.slashed = b.slashed := by
  have hin := inLibrary?_respelled h hpq
  have hok : ∀ {candidates : List FilePath} {x y header : FilePath} {f : Disk},
      (if candidates.any f.isFile then Except.ok x else .error (⟨header, candidates⟩ : MissingHeader)) =
        .ok y → x = y := fun hif => by
    split at hif
    · exact Except.ok.inj hif
    · cases hif
  rw [includePath] at ha hb
  cases hi : l.inLibrary? d p with
  | none =>
    rw [hi] at hin ha
    rw [Option.map_eq_none_iff.1 hin.symm] at hb
    rw [← hok ha, ← hok hb, fileName?_congr hpq]
  | some found =>
    cases hi' : l.inLibrary? e q with
    | none => rw [hi, hi'] at hin; cases hin
    | some found' =>
      rw [hi] at hin ha
      rw [hi'] at hin hb
      have hrel : found.2.components = found'.2.components := (Prod.mk.inj (Option.some.inj hin)).2
      rw [← hok ha, ← hok hb, slashed, slashed, hrel]

end TypeGen.Project.Layout
