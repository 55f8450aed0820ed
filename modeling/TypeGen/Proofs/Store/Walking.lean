import Mathlib.Data.List.Sort
import TypeGen.Proofs.Path.Joining
import TypeGen.Proofs.Store.Places
import TypeGen.Store.Walk

/-!
What a walk comes to. The names that lead to its files from where it starts are told by the tree, and
they strictly increase: it goes by the names in each directory, and what is inside of one of them
starts with that name. Its paths are the path that it starts at and below that names only, as long as
the tree has no names but such as can be written.
-/

namespace TypeGen.Store

open FilePath

/-- Every name in the tree can be written as one piece of a path. -/
def FileTree.HasPlainNames (t : FileTree) : Prop :=
  ∀ place e, t.get? place = some e → ∀ name ∈ place, IsPlain name

instance (s : String) : Decidable (IsPlain s) :=
  decidable_of_iff ('/' ∉ s.toList ∧ isIdle s = false ∧ s ≠ "..")
    ⟨fun ⟨h, h', h''⟩ => ⟨h, h', h''⟩, fun h => ⟨h.noSlash, h.active, h.notParent⟩⟩

instance (t : FileTree) : Decidable t.HasPlainNames :=
  decidable_of_iff (∀ e ∈ t.entries, ∀ name ∈ e.1, IsPlain name)
    ⟨fun h place e he => h (place, e) (FileTree.mem_entries.2 he),
      fun h e he => h e.1 e.2 (FileTree.mem_entries.1 he)⟩

namespace FilePath

/-- The components of a path below another: those of the other, and then names. -/
def IsBelow (p q : FilePath) : Prop :=
  ∃ names, names ≠ [] ∧ (∀ name ∈ names, IsPlain name) ∧ q.components = p.components ++ names.map .name

/-- The path of what names lead to from another path. -/
def under (p : FilePath) (names : Place) : FilePath := names.foldl child p

@[simp] theorem under_nil (p : FilePath) : p.under [] = p := rfl

@[simp] theorem under_cons (p : FilePath) (name : String) (names : Place) :
    p.under (name :: names) = (p.child name).under names := rfl

theorem components_under : ∀ {names : Place} (p : FilePath), (∀ name ∈ names, IsPlain name) →
    (p.under names).components = p.components ++ names.map .name
  | [], p, _ => by simp
  | name :: names, p, h => by
    rw [under_cons, components_under _ fun n hn => h n (List.mem_cons_of_mem _ hn),
      components_child (h name (List.mem_cons_self ..))]
    simp

theorem IsWritten.join {p q : FilePath} (hp : p.IsWritten) (hq : q.IsWritten) :
    (p.join q).IsWritten := by
  have hempty : ∀ s ∈ [""], '/' ∉ s.toList := by simp
  rw [FilePath.join]
  split
  · exact hq
  · split
    · split
      · exact hp
      · intro s hs
        rcases List.mem_append.1 hs with hs | hs
        · exact hp s (List.dropLast_subset _ hs)
        · exact hq s hs
    · split
      · exact hq
      · intro s hs
        rcases List.mem_append.1 hs with hs | hs
        · exact hp s hs
        · split at hs
          · exact hempty s hs
          · exact hq s hs

theorem IsWritten.under : ∀ {names : Place} {p : FilePath}, p.IsWritten → (p.under names).IsWritten
  | [], _, h => h
  | name :: _, p, h => IsWritten.under (p := p.child name) (h.join (isWritten_ofString name))

end FilePath

theorem append_lt_append_iff : ∀ {here p q : Place}, here ++ p < here ++ q ↔ p < q
  | [], _, _ => Iff.rfl
  | n :: here, p, q => by
    rw [List.cons_append, List.cons_append, List.cons_lt_cons_iff]
    exact ⟨fun h => h.elim (fun h => absurd h Std.lt_irrefl) fun h => append_lt_append_iff.1 h.2,
      fun h => .inr ⟨rfl, append_lt_append_iff.2 h⟩⟩

/-! ### What is in a directory -/

theorem sortByName_eq_insertionSort (xs : Listing) :
    sortByName xs = xs.insertionSort (·.1 ≤ ·.1) := by
  have hinsert : ∀ x ys, insertByName x ys = List.orderedInsert (·.1 ≤ ·.1) x ys := fun x ys => by
    induction ys with
    | nil => rfl
    | cons y ys ih => rw [insertByName, List.orderedInsert, ih]
  rw [sortByName, List.insertionSort]
  exact congrArg (List.foldr · [] xs) (funext₂ hinsert)

namespace FileTree

variable {t : FileTree} {place : Place}

theorem mem_inside {name : String} {e : Entry} :
    (name, e) ∈ t.inside place ↔ t.get? (place ++ [name]) = some e :=
  mem_inside_iff.trans mem_entries

/-- What is in a directory has different names, which increase. -/
theorem pairwise_inside (t : FileTree) (place : Place) :
    (t.inside place).Pairwise (·.1 < ·.1) := by
  have hne : (t.entries.filterMap (entryIn? place)).Pairwise (·.1 ≠ ·.1) := by
    rw [List.pairwise_filterMap]
    refine t.sorted.imp fun {e f} hlt x hx y hy hxy => ?_
    rw [entryIn?_eq_some.1 hx, entryIn?_eq_some.1 hy, hxy] at hlt
    exact Std.lt_irrefl hlt
  rw [inside, sortByName_eq_insertionSort]
  have hne' := (List.perm_insertionSort (·.1 ≤ ·.1) _).symm.pairwise hne fun h => h.symm
  have hle := List.pairwise_insertionSort (·.1 ≤ ·.1) (t.entries.filterMap (entryIn? place))
  exact (hle.and hne').imp fun h => Std.lt_of_le_of_ne h.1 h.2

theorem get?_above {q place : Place} (hq : q <+: place)
    (h : (t.get? place).isSome = true) : q = place ∨ t.get? q = some .directory := by
  obtain ⟨rest, rfl⟩ := hq
  induction rest using List.reverseRecOn with
  | nil => exact .inl (List.append_nil q).symm
  | append_singleton rest name ih =>
    rw [← List.append_assoc] at h
    have hd : t.get? (q ++ rest) = some .directory := t.closed _ name h
    rcases ih (by rw [hd]; rfl) with hq | hq
    · exact .inr (hq ▸ hd)
    · exact .inr hq

end FileTree

namespace Disk

variable {d : Disk} {skip : FilePath → Bool} {p q : FilePath} {top names : Place}

/-! ### The names of the files -/

/-- The names that lead from a directory to the files of a walk through it. -/
def namesBelow (d : Disk) (skip : FilePath → Bool) (p : FilePath) (top : Place) : List Place :=
  if isPath p then
    (d.tree.inside top).attach.flatMap fun ⟨(name, e), _⟩ =>
      List.map (name :: ·) <|
        if skip (p.child name) then []
        else match e with
          | .directory => d.namesBelow skip (p.child name) (top ++ [name])
          | .file _ => [[]]
          | .link _ => []
  else []
  termination_by d.tree.depth - top.length
  decreasing_by exact FileTree.depth_sub_lt ‹_›

theorem filesBelow_eq_map : d.filesBelow skip p top = (d.namesBelow skip p top).map p.under := by
  induction p, top using filesBelow.induct d with
  | case1 p top hpath ih =>
    rw [filesBelow, namesBelow, if_pos hpath, if_pos hpath, List.map_flatMap]
    congr 1
    funext ⟨(name, e), hin⟩
    rw [List.map_map]
    dsimp only
    split
    · rfl
    · cases e with
      | directory => rw [ih name hin]; rfl
      | file c => rfl
      | link target => rfl
  | case2 p top hpath => rw [filesBelow, namesBelow, if_neg hpath, if_neg hpath, List.map_nil]

/-- A walk visits what names lead to: it enters what they lead to on the way, and can follow the
paths of the directories among it. -/
structure Visits (skip : FilePath → Bool) (p : FilePath) (names : Place) : Prop where
  ne_nil : names ≠ []
  entered : ∀ inner, inner ≠ [] → inner <+: names → skip (p.under inner) = false
  followed : ∀ inner, inner <+: names.dropLast → isPath (p.under inner) = true

theorem visits_cons {name : String} : Visits skip p (name :: names) ↔
    isPath p = true ∧ skip (p.child name) = false ∧ (names = [] ∨ Visits skip (p.child name) names) := by
  constructor
  · rintro ⟨-, hentered, hfollowed⟩
    refine ⟨hfollowed [] List.nil_prefix, hentered [name] (by simp) (by simp), ?_⟩
    cases names with
    | nil => exact .inl rfl
    | cons next rest =>
      exact .inr ⟨by simp,
        fun inner _ h => hentered (name :: inner) (by simp) (List.cons_prefix_cons.2 ⟨rfl, h⟩),
        fun inner h => hfollowed (name :: inner) (List.cons_prefix_cons.2 ⟨rfl, h⟩)⟩
  · rintro ⟨hpath, hskip, hrest⟩
    refine ⟨by simp, fun inner hne h => ?_, fun inner h => ?_⟩
    · cases inner with
      | nil => exact absurd rfl hne
      | cons n inner =>
        obtain ⟨rfl, hinner⟩ := List.cons_prefix_cons.1 h
        cases inner with
        | nil => exact hskip
        | cons m inner =>
          rcases hrest with rfl | hrest
          · cases List.prefix_nil.1 hinner
          · exact hrest.entered _ (by simp) hinner
    · cases inner with
      | nil => exact hpath
      | cons n inner =>
        rcases hrest with rfl | hrest
        · cases List.prefix_nil.1 h
        · rw [List.dropLast_cons_of_ne_nil hrest.ne_nil] at h
          obtain ⟨rfl, hinner⟩ := List.cons_prefix_cons.1 h
          exact hrest.followed inner hinner

theorem mem_namesBelow : names ∈ d.namesBelow skip p top ↔
    (∃ c, d.tree.get? (top ++ names) = some (.file c)) ∧ Visits skip p names := by
  induction p, top using filesBelow.induct d generalizing names with
  | case1 p top hpath ih =>
    rw [namesBelow, if_pos hpath, List.mem_flatMap]
    constructor
    · rintro ⟨⟨⟨name, e⟩, hin⟩, -, hnames⟩
      obtain ⟨rest, hrest, rfl⟩ := List.mem_map.1 hnames
      split at hrest
      · cases hrest
      next hskip =>
        rw [Bool.not_eq_true] at hskip
        cases e with
        | directory =>
          obtain ⟨⟨c, hc⟩, hv⟩ := (ih name hin).1 hrest
          exact ⟨⟨c, by simpa using hc⟩, visits_cons.2 ⟨hpath, hskip, .inr hv⟩⟩
        | file c =>
          rw [List.mem_singleton.1 hrest]
          exact ⟨⟨c, FileTree.mem_inside.1 hin⟩, visits_cons.2 ⟨hpath, hskip, .inl rfl⟩⟩
        | link target => cases hrest
    · rintro ⟨⟨c, hc⟩, hv⟩
      obtain ⟨name, names, rfl⟩ := List.exists_cons_of_ne_nil hv.ne_nil
      obtain ⟨-, hskip, rfl | hrest⟩ := visits_cons.1 hv
      · exact ⟨⟨(name, .file c), FileTree.mem_inside.2 hc⟩, List.mem_attach .., by simp [hskip]⟩
      · rw [List.append_cons] at hc
        have hdir : d.tree.get? (top ++ [name]) = some .directory := by
          refine (FileTree.get?_above (List.prefix_append _ names) (by rw [hc]; rfl)).resolve_left
            fun h => hrest.ne_nil (List.append_right_eq_self.1 h.symm)
        have hin := FileTree.mem_inside.2 hdir
        refine ⟨⟨(name, .directory), hin⟩, List.mem_attach .., ?_⟩
        refine List.mem_map_of_mem ?_
        rw [if_neg (by simp [hskip])]
        exact (ih name hin).2 ⟨⟨c, hc⟩, hrest⟩
  | case2 p top hpath =>
    rw [namesBelow, if_neg hpath]
    exact ⟨fun h => absurd h List.not_mem_nil, fun h => absurd (h.2.followed [] List.nil_prefix) hpath⟩

/-- A walk goes by the order of the names that lead to its files: those of one directory increase, and
what is inside of a directory starts with its name. -/
theorem pairwise_namesBelow (d : Disk) (skip : FilePath → Bool) (p : FilePath) (top : Place) :
    (d.namesBelow skip p top).Pairwise (· < ·) := by
  induction p, top using filesBelow.induct d with
  | case1 p top hpath ih =>
    rw [namesBelow, if_pos hpath, List.pairwise_flatMap]
    constructor
    · rintro ⟨⟨name, e⟩, hin⟩ -
      refine .map _ (fun _ _ h => List.cons_lt_cons_iff.2 (.inr ⟨rfl, h⟩)) ?_
      split
      · exact .nil
      · cases e with
        | directory => exact ih name hin
        | file c => exact List.pairwise_singleton ..
        | link target => exact .nil
    · have hlt : (d.tree.inside top).attach.Pairwise (·.1.1 < ·.1.1) := by
        have := d.tree.pairwise_inside top
        rwa [← List.attach_map_subtype_val (d.tree.inside top), List.pairwise_map] at this
      refine hlt.imp fun {x y} hxy names hnames names' hnames' => ?_
      obtain ⟨rest, -, rfl⟩ := List.mem_map.1 hnames
      obtain ⟨rest', -, rfl⟩ := List.mem_map.1 hnames'
      exact List.cons_lt_cons_iff.2 (.inl hxy)
  | case2 p top hpath => rw [namesBelow, if_neg hpath]; exact .nil

theorem mem_filesBelow : q ∈ d.filesBelow skip p top ↔ ∃ names c,
    d.tree.get? (top ++ names) = some (.file c) ∧ Visits skip p names ∧ q = p.under names := by
  rw [filesBelow_eq_map, List.mem_map]
  constructor
  · rintro ⟨names, hnames, rfl⟩
    obtain ⟨⟨c, hc⟩, hv⟩ := mem_namesBelow.1 hnames
    exact ⟨names, c, hc, hv, rfl⟩
  · rintro ⟨names, c, hc, hv, rfl⟩
    exact ⟨names, mem_namesBelow.2 ⟨⟨c, hc⟩, hv⟩, rfl⟩

/-! ### The paths of the files -/

/-- What a walk may be: nothing, the one file that it starts at, or a way through a directory. -/
theorem files_cases (d : Disk) (skip : FilePath → Bool) (p : FilePath) :
    d.files skip p = [] ∨ d.files skip p = [p] ∨ ∃ top, d.files skip p = d.filesBelow skip p top := by
  rw [files]
  split
  · split
    · exact .inl rfl
    · exact .inr (.inl rfl)
  · split
    · exact .inl rfl
    · exact .inr (.inr ⟨_, rfl⟩)
  · split
    · split
      · exact .inl rfl
      · exact .inr (.inr ⟨_, rfl⟩)
    · exact .inl rfl
  · exact .inl rfl

theorem components_under_of_get? (ht : d.tree.HasPlainNames) (p : FilePath) {e : Entry}
    (he : d.tree.get? (top ++ names) = some e) :
    (p.under names).components = p.components ++ names.map .name :=
  components_under p fun name hn => ht _ e he name (List.mem_append_right _ hn)

/-- All paths of a walk are written, and below its start unless that is the only one. -/
theorem mem_files (ht : d.tree.HasPlainNames) (hp : p.IsWritten) (hq : q ∈ d.files skip p) :
    q.IsWritten ∧ (d.files skip p = [q] ∨ p.IsBelow q) := by
  rcases d.files_cases skip p with h | h | ⟨top, h⟩
  · rw [h] at hq; cases hq
  · rw [h] at hq
    obtain rfl := List.mem_singleton.1 hq
    exact ⟨hp, .inl h⟩
  · rw [h] at hq
    obtain ⟨names, c, hc, hv, rfl⟩ := mem_filesBelow.1 hq
    exact ⟨hp.under, .inr ⟨names, hv.ne_nil,
      fun name hn => ht _ _ hc name (List.mem_append_right _ hn), components_under_of_get? ht p hc⟩⟩

/-- A walk comes to no path twice, however it may be written. -/
theorem pairwise_files (ht : d.tree.HasPlainNames) (skip : FilePath → Bool) (p : FilePath) :
    (d.files skip p).Pairwise fun q q' => q.components ≠ q'.components := by
  rcases d.files_cases skip p with h | h | ⟨top, h⟩
  · rw [h]; exact .nil
  · rw [h]; exact List.pairwise_singleton ..
  · rw [h, filesBelow_eq_map, List.pairwise_map]
    refine (d.pairwise_namesBelow skip p top).imp_of_mem fun {names names'} hn hn' hlt hsame => ?_
    obtain ⟨⟨c, hc⟩, -⟩ := mem_namesBelow.1 hn
    obtain ⟨⟨c', hc'⟩, -⟩ := mem_namesBelow.1 hn'
    rw [components_under_of_get? ht p hc, components_under_of_get? ht p hc'] at hsame
    have hnames : names = names' :=
      List.map_injective_iff.2 (fun _ _ h0 => Component.name.inj h0) (List.append_cancel_left hsame)
    rw [hnames] at hlt
    exact Std.lt_irrefl hlt

end Disk

end TypeGen.Store
