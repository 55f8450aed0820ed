import TypeGen.Proofs.Generate.Sample
import TypeGen.Proofs.Layout.Naming
import TypeGen.Proofs.Store.Listing

/-!
What the listings of a project have: the files under its root that are told by their names, in the
order of the names that lead to them, but for what is in an excluded entry of the root.
-/

namespace TypeGen.Project

open TypeGen.Spec TypeGen.Store TypeGen.Store.FilePath TypeGen.Text

/-- The name of a spec file of some kind. -/
def IsSpecName (name : String) : Prop :=
  ∃ (stem : String) (kind : Kind), stem ≠ "" ∧ name = stem ++ kind.suffix

theorem isSome_kindOf?_iff {p : FilePath} :
    (kindOf? p).isSome = true ↔ ∃ name, p.fileName? = some name ∧ IsSpecName name := by
  rw [Option.isSome_iff_exists]
  constructor
  · rintro ⟨kind, hk⟩
    obtain ⟨stem, hne, hn⟩ := kindOf?_eq_some.1 hk
    exact ⟨_, hn, stem, kind, hne, rfl⟩
  · rintro ⟨_, hn, stem, kind, hne, rfl⟩
    exact ⟨kind, kindOf?_eq_some.2 ⟨stem, hne, hn⟩⟩

namespace Layout

variable {l : Layout} {d : Disk}

/-- The name of a generated file. A name that ends like that of a header is not read as that of a
source. -/
def IsGeneratedName (l : Layout) (name : String) : Prop :=
  (∃ stem, stem ≠ "" ∧ name = stem ++ l.headerSuffix) ∨
    (∀ stem, name ≠ stem ++ l.headerSuffix) ∧ ∃ stem, stem ≠ "" ∧ name = stem ++ sourceSuffix

theorem isGenerated_iff {p : FilePath} :
    l.isGenerated p = true ↔ ∃ name, p.fileName? = some name ∧ l.IsGeneratedName name := by
  have hnone : ∀ {name}, cutEnding? l.headerSuffix name = none ↔ ∀ stem, name ≠ stem ++ l.headerSuffix :=
    fun {name} => by
      rw [Option.eq_none_iff_forall_ne_some]
      exact forall_congr' fun stem => not_congr cutEnding?_eq_some
  rw [isGenerated, Option.isSome_iff_exists]
  constructor
  · rintro ⟨stem, hstem⟩
    obtain ⟨hne, name, hn, h | ⟨h, h'⟩⟩ := of_generatedStem? hstem
    · exact ⟨name, hn, .inl ⟨stem, hne, cutEnding?_eq_some.1 h⟩⟩
    · exact ⟨name, hn, .inr ⟨hnone.1 h, stem, hne, cutEnding?_eq_some.1 h'⟩⟩
  · rintro ⟨name, hn, ⟨stem, hne, h⟩ | ⟨h, stem, hne, h'⟩⟩
    · exact ⟨stem, generatedStem?_eq_some hn hne (.inl (cutEnding?_eq_some.2 h))⟩
    · exact ⟨stem, generatedStem?_eq_some hn hne (.inr ⟨hnone.2 h, cutEnding?_eq_some.2 h'⟩)⟩

/-! ### Excluded entries -/

/-- What is in the root is excluded by the first of the names that lead to it. -/
theorem isExcluded_under {names : Place} (h : ∀ name ∈ names, IsPlain name) :
    l.isExcluded (l.root.under names) = names.head?.any (l.config.exclude.contains ·) := by
  have hcs : (l.root.under names).components = l.root.components ++ names.map .name :=
    components_under l.root h
  obtain ⟨rel, hrel, hcs'⟩ := exists_relativeTo?_append (p := l.root.under names) ⟨_, hcs.symm⟩
  have hnames : rel.components = names.map .name := List.append_cancel_left (hcs'.symm.trans hcs)
  rw [isExcluded, relative, hrel, Option.getD_some, hnames]
  cases names <;> rfl

theorem skipsInside (ht : d.tree.HasPlainNames) (top : Place) :
    d.SkipsInside l.isExcluded l.root top := by
  intro names rest e hget hne hskip
  have hplain : ∀ name ∈ names ++ rest, IsPlain name := fun name hname =>
    ht _ _ hget name (List.mem_append_right _ hname)
  rw [isExcluded_under fun name hname => hplain name (List.mem_append_left _ hname)] at hskip
  rwa [isExcluded_under hplain, List.head?_append_of_ne_nil _ hne]

theorem files_eq_filter (ht : d.tree.HasPlainNames) :
    l.files d = (d.files (fun _ => false) l.root).filter (!l.isExcluded ·) := by
  have hroot : l.isExcluded (l.root.under []) = false := isExcluded_under (by simp)
  exact Disk.files_eq_filter hroot (skipsInside ht)

/-! ### Listings -/

/-- A listing by names: those of the files under the root, links aside, whose first name is not
excluded and whose last one is `IsListed`, each once and in order. What cannot be opened by its path
is passed over. -/
structure Lists (l : Layout) (d : Disk) (IsListed : String → Prop) (ps : List FilePath)
    (ns : List Place) : Prop where
  paths : ps = ns.map l.root.under
  components : ∀ names ∈ ns, (l.root.under names).components = l.root.components ++ names.map .name
  increasing : ns.Pairwise (· < ·)
  opened : ∀ names ∈ ns, isPath (l.root.under names.dropLast) = true
  mem_iff : ∀ names, isPath (l.root.under names.dropLast) = true → (names ∈ ns ↔
    d.Holds l.root names ∧ (∀ first ∈ names.head?, first ∉ l.config.exclude) ∧
      ∃ name, (l.root.under names).fileName? = some name ∧ IsListed name)

theorem exists_lists_of_test (ht : d.tree.HasPlainNames) {test : FilePath → Bool}
    {IsListed : String → Prop}
    (htest : ∀ p, test p = true ↔ ∃ name, p.fileName? = some name ∧ IsListed name) :
    ∃ ns, l.Lists d IsListed ((l.files d).filter test) ns := by
  obtain ⟨ns, hlt, hfiles, hmem⟩ := Disk.exists_names_files ht l.root
  have hplain : ∀ {names}, d.Holds l.root names → ∀ n ∈ names, IsPlain n := by
    rintro names ⟨top, -, c, hget⟩ n hn
    exact ht _ _ hget n (List.mem_append_right _ hn)
  refine ⟨ns.filter fun names => !l.isExcluded (l.root.under names) && test (l.root.under names),
    ?_, ?_, hlt.filter _, ?_, ?_⟩
  · rw [files_eq_filter ht, hfiles, List.filter_map, List.filter_map, List.filter_filter]
    congr 1
    exact List.filter_congr fun names _ => Bool.and_comm ..
  · exact fun names hn =>
      components_under l.root (hplain ((hmem names).1 (List.mem_of_mem_filter hn)).1)
  · exact fun names hn => ((hmem names).1 (List.mem_of_mem_filter hn)).2
  · intro names hpath
    rw [List.mem_filter, hmem, Bool.and_eq_true, htest]
    constructor
    · rintro ⟨⟨hholds, -⟩, hexcluded, hname⟩
      refine ⟨hholds, fun first hfirst hin => ?_, hname⟩
      rw [isExcluded_under (hplain hholds), Option.mem_def.1 hfirst] at hexcluded
      simp [hin] at hexcluded
    · rintro ⟨hholds, hfirst, hname⟩
      refine ⟨⟨hholds, hpath⟩, ?_, hname⟩
      rw [isExcluded_under (hplain hholds)]
      cases names with
      | nil => rfl
      | cons first rest => simpa using hfirst first rfl

/-- The specs and the generated files of a project are all the files of such names, and entering what
is excluded would not change that. -/
theorem exists_lists (ht : d.tree.HasPlainNames) (l : Layout) :
    (∃ ns, l.Lists d IsSpecName (l.specFiles d) ns) ∧
    (∃ ns, l.Lists d l.IsGeneratedName (l.generatedFiles d) ns) ∧
    l.specFiles d = (d.files (fun _ => false) l.root).filter
      (fun p => !l.isExcluded p && (kindOf? p).isSome) ∧
    l.generatedFiles d = (d.files (fun _ => false) l.root).filter
      (fun p => !l.isExcluded p && l.isGenerated p) := by
  refine ⟨exists_lists_of_test ht fun _ => isSome_kindOf?_iff,
    exists_lists_of_test ht fun _ => isGenerated_iff, ?_, ?_⟩
  · rw [specFiles, files_eq_filter ht, List.filter_filter]
    exact List.filter_congr fun _ _ => Bool.and_comm ..
  · rw [generatedFiles, files_eq_filter ht, List.filter_filter]
    exact List.filter_congr fun _ _ => Bool.and_comm ..

/-- A project that leaves out its `build`, which has a directory of that name further down, one whose
name its own starts with, and links to a spec and to a directory. -/
def listed : Disk :=
  let d := furnish ["r/build", "r/lib/build", "r/lib.d"]
    [("r/build/a.struct.toml", emptyStruct), ("r/lib/build/b.enum.toml", smallEnum),
      ("r/lib.d/c.struct.toml", emptyStruct), ("r/lib/.struct.toml", emptyStruct),
      ("r/lib/b.dtg.h", "h"), ("r/lib.struct.toml", emptyStruct)]
  let d := (d.makeLink? (ofString "lib.struct.toml") (ofString "r/d.struct.toml")).getD d
  (d.makeLink? (ofString "lib") (ofString "r/other")).getD d

theorem exists_lists_listed :
    let l : Layout := ⟨ofString "r", { Config.ofName "p" with exclude := ["build"] }⟩
    listed.tree.HasPlainNames ∧
    l.specFiles listed = [["lib", "build", "b.enum.toml"], ["lib.d", "c.struct.toml"],
      ["lib.struct.toml"]].map l.root.under ∧
    l.generatedFiles listed = [["lib", "b.dtg.h"]].map l.root.under ∧
    ∃ ns, l.Lists listed IsSpecName (l.specFiles listed) ns := by
  have ht : listed.tree.HasPlainNames := by decide +kernel
  exact ⟨ht, by decide +kernel, by decide +kernel, (exists_lists ht _).1⟩

end Layout

end TypeGen.Project
