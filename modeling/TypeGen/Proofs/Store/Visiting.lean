import Mathlib.Data.List.Sort
import TypeGen.Proofs.Store.Keeping
import TypeGen.Proofs.Store.Passing
import TypeGen.Proofs.Store.Walking

/-!
What a walk visits. Whether a file is visited is decided by the names that lead to it, so a walk
through a tree that has more files comes to the same ones as before, in the same order, and to some of
the new ones.
-/

namespace TypeGen.Store

open FilePath

namespace Disk

/-! ### Files of a walk -/

variable {d e : Disk} {skip : FilePath → Bool} {p q : FilePath} {top : Place}

/-- A walk comes to the file that it starts at, or to the files that it visits in a directory. -/
theorem mem_files_iff (hl : d.tree.NoLinks) : q ∈ d.files skip p ↔ skip p = false ∧
    ((q = p ∧ ∃ place c, d.locate true p = .found place (.file c)) ∨
      ∃ top, d.locate true p = .found top .directory ∧ ∃ names c,
        d.tree.get? (top ++ names) = some (.file c) ∧ Visits skip p names ∧ q = p.under names) := by
  have hlink := d.locate_agrees false p
  rw [files]
  split
  next place c hloc =>
    rw [locate_eq_file hl, ← locate_eq_file hl true] at hloc
    simp only [hloc]
    cases skip p <;> simp
  next top hloc =>
    rw [locate_eq_directory hl, ← locate_eq_directory hl true] at hloc
    simp only [hloc]
    cases skip p
    · simp [mem_filesBelow]
    · simp
  next place target hloc =>
    rw [hloc] at hlink
    exact absurd hlink (hl place target)
  next hfile hdir hlink =>
    simp only [List.not_mem_nil, false_iff, not_and]
    rintro - (⟨-, place, c, hloc⟩ | ⟨top, hloc, -⟩)
    · exact hfile place c ((locate_eq_file hl false).2 ((locate_eq_file hl true).1 hloc))
    · exact hdir top ((locate_eq_directory hl false).2 ((locate_eq_directory hl true).1 hloc))

/-! ### Trees that grow -/

namespace Keeps

theorem locate_directory (h : d.Keeps e) (hl : d.tree.NoLinks) {through : Bool}
    (hp : d.locate through p = .found top .directory) :
    e.locate through p = .found top .directory :=
  locate_directory_grows hl h.home h.grows hp

theorem locate_file (h : d.Keeps e) (hd : d.tree.NoLinks) (he : e.tree.NoLinks) {through : Bool}
    {place : Place} {c : Content} (hp : d.locate through p = .found place (.file c)) :
    ∃ c', e.locate through p = .found place (.file c') := by
  obtain ⟨hplace, hget⟩ := (locate_eq_file hd through).1 hp
  obtain ⟨c', hc'⟩ := h.isFile place c hget
  exact ⟨c', (locate_eq_file he through).2 ⟨h.filePlace? hd he hplace hget, hc'⟩⟩

/-- A walk still comes to every file that it came to. -/
theorem files_subset (h : d.Keeps e) (hd : d.tree.NoLinks) (he : e.tree.NoLinks)
    (hq : q ∈ d.files skip p) : q ∈ e.files skip p := by
  obtain ⟨hskip, ⟨rfl, place, c, hloc⟩ | ⟨top, hloc, names, c, hget, hv, hpath⟩⟩ :=
    (mem_files_iff hd).1 hq
  · obtain ⟨c', hloc'⟩ := h.locate_file hd he hloc
    exact (mem_files_iff he).2 ⟨hskip, .inl ⟨rfl, place, c', hloc'⟩⟩
  · obtain ⟨c', hc'⟩ := h.isFile _ c hget
    exact (mem_files_iff he).2
      ⟨hskip, .inr ⟨top, h.locate_directory hd hloc, names, c', hc', hv, hpath⟩⟩

end Keeps

/-! ### Places of the files -/

theorem aim_of_locate_directory (hl : d.tree.NoLinks) {through : Bool}
    (h : d.locate through p = .found top .directory) : p.aim d.home = top := by
  obtain ⟨-, -, hway⟩ := (locate_eq_directory hl through).1 h
  rw [aim_eq, hway.foldl_follow]

/-- A path below another aims at the place that the names lead to. -/
theorem aim_under (ht : d.tree.HasPlainNames) {names : Place} {entry : Entry}
    (hget : d.tree.get? (p.aim d.home ++ names) = some entry) :
    (p.under names).aim d.home = p.aim d.home ++ names := by
  rw [aim, components_under_of_get? ht p hget, List.foldl_append, foldl_follow_names]
  rfl

/-- The files of a walk are where their paths aim, and in directories all the way. -/
theorem passes_of_mem_files (hl : d.tree.NoLinks) (ht : d.tree.HasPlainNames)
    (hq : q ∈ d.files skip p) : d.Passes q.components.dropLast ∧
      ∃ c, d.tree.get? (q.aim d.home) = some (.file c) := by
  obtain ⟨-, ⟨rfl, place, c, hloc⟩ | ⟨top, hloc, names, c, hget, hv, rfl⟩⟩ := (mem_files_iff hl).1 hq
  · obtain ⟨hplace, hget⟩ := (locate_eq_file hl true).1 hloc
    rw [aim_of_filePlace? hl hplace]
    exact ⟨passes_of_filePlace? hl hplace, c, hget⟩
  · obtain rfl := aim_of_locate_directory hl hloc
    rw [aim_under ht hget]
    refine ⟨?_, c, hget⟩
    have hne := hv.ne_nil
    rw [components_under_of_get? ht p hget, List.dropLast_append_of_ne_nil (by simpa),
      ← List.map_dropLast]
    refine (passes_of_isDirectory hl (isDirectory_iff.2 ⟨_, hloc⟩)).append fun rest hrest => ?_
    obtain ⟨inner, hinner, rfl⟩ := List.prefix_map_iff.1 hrest
    rw [foldl_follow_names]
    have hpre := hinner.trans (List.dropLast_prefix names)
    rcases FileTree.get?_above ((List.prefix_append_right_inj _).2 hpre) (by rw [hget]; rfl) with
      hsame | hd
    · have hlen := hinner.length_le
      rw [List.append_cancel_left hsame, List.length_dropLast] at hlen
      have := List.length_pos_iff.2 hne
      omega
    · exact hd

/-- A walk that comes to anything comes to new files only, once a tree has grown. -/
theorem Keeps.mem_files (h : d.Keeps e) (hd : d.tree.NoLinks) (he : e.tree.NoLinks)
    (ht : e.tree.HasPlainNames) (hne : d.files skip p ≠ []) {c : Content}
    (hq : q ∈ e.files skip p) (hc : d.tree.get? (q.aim d.home) = some (.file c)) :
    q ∈ d.files skip p := by
  obtain ⟨f, hf⟩ := List.exists_mem_of_ne_nil _ hne
  obtain ⟨hskip, ⟨-, place, c₀, hloc⟩ | ⟨top, hloc, -⟩⟩ := (mem_files_iff hd).1 hf
  · obtain ⟨c', hloc'⟩ := h.locate_file hd he hloc
    obtain ⟨-, ⟨rfl, -⟩ | ⟨top, hdir, -⟩⟩ := (mem_files_iff he).1 hq
    · exact (mem_files_iff hd).2 ⟨hskip, .inl ⟨rfl, place, c₀, hloc⟩⟩
    · rw [hloc'] at hdir; cases hdir
  · have hloc' := h.locate_directory hd hloc
    obtain ⟨-, ⟨-, place, c', hfile⟩ | ⟨top', hdir, names, c', hget, hv, rfl⟩⟩ :=
      (mem_files_iff he).1 hq
    · rw [hloc'] at hfile; cases hfile
    · rw [hloc'] at hdir
      cases hdir
      obtain rfl := aim_of_locate_directory he hloc'
      rw [← h.home, aim_under ht hget] at hc
      exact (mem_files_iff hd).2 ⟨hskip, .inr ⟨_, hloc, names, c, hc, hv, rfl⟩⟩

/-- A walk goes by the order of the places. -/
theorem pairwise_aim_files (hl : d.tree.NoLinks) (ht : d.tree.HasPlainNames)
    (skip : FilePath → Bool) (p : FilePath) :
    (d.files skip p).Pairwise fun q q' => q.aim d.home < q'.aim d.home := by
  have hbelow : ∀ {through : Bool} {top : Place}, d.locate through p = .found top .directory →
      (d.filesBelow skip p top).Pairwise fun q q' => q.aim d.home < q'.aim d.home := by
    intro through top hloc
    obtain rfl := aim_of_locate_directory hl hloc
    have haim : ∀ names ∈ d.namesBelow skip p (p.aim d.home),
        (p.under names).aim d.home = p.aim d.home ++ names := fun names hnames => by
      obtain ⟨⟨c, hc⟩, -⟩ := mem_namesBelow.1 hnames
      exact aim_under ht hc
    rw [filesBelow_eq_map, List.pairwise_map]
    refine (d.pairwise_namesBelow skip p _).imp_of_mem fun {names names'} hn hn' hlt => ?_
    rw [haim names hn, haim names' hn']
    exact append_lt_append_iff.2 hlt
  rw [files]
  split
  · split <;> simp
  next hloc =>
    split
    · exact .nil
    · exact hbelow hloc
  · split
    next hloc =>
      split
      · exact .nil
      · exact hbelow hloc
    next => exact .nil
  · exact .nil

theorem nodup_files (hl : d.tree.NoLinks) (ht : d.tree.HasPlainNames) (skip : FilePath → Bool)
    (p : FilePath) : (d.files skip p).Nodup :=
  (pairwise_aim_files hl ht skip p).imp fun {q q'} hlt heq => by
    rw [heq] at hlt; exact Std.lt_irrefl hlt

/-- A walk through a tree that has grown comes to the same files in the same order. -/
theorem Keeps.files_sublist (h : d.Keeps e) (hd : d.tree.NoLinks) (he : e.tree.NoLinks)
    (ht : d.tree.HasPlainNames) (ht' : e.tree.HasPlainNames) (skip : FilePath → Bool) (p : FilePath) :
    (d.files skip p).Sublist (e.files skip p) := by
  have hasymm : Std.Antisymm fun q q' : FilePath => q.aim d.home < q'.aim d.home :=
    ⟨fun _ _ hlt hlt' => absurd (Std.lt_trans hlt hlt') Std.lt_irrefl⟩
  have hpairwise := pairwise_aim_files hd ht skip p
  have hpairwise' := pairwise_aim_files he ht' skip p
  rw [h.home] at hpairwise'
  have hsub := List.subperm_of_subset (nodup_files hd ht skip p) fun q => h.files_subset hd he
  exact List.sublist_of_subperm_of_pairwise hsub hpairwise hpairwise'

end Disk

/-! ### Names of new files -/

/-- The names in a path that is written can be names of entries. -/
theorem FilePath.IsWritten.isPlain {p : FilePath} (hp : p.IsWritten) {name : String}
    (h : .name name ∈ p.components) : IsPlain name := by
  rw [components_eq, List.mem_append] at h
  rcases h with h | h
  · rcases mem_head? h with ⟨h0, -⟩ | ⟨h0, -⟩ <;> cases h0
  · obtain ⟨piece, hpiece, hc⟩ := List.mem_filterMap.1 h
    obtain rfl := componentOf?_eq_name hc
    have hactive : isIdle piece = false := by
      by_contra hidle
      rw [componentOf?_of_isIdle (by simpa using hidle)] at hc; cases hc
    refine ⟨hp piece hpiece, hactive, fun hdots => ?_⟩
    rw [hdots] at hc
    revert hc; decide

theorem isPlain_of_mem_foldl {name : String} : ∀ (cs : List Component) {here : Place},
    (∀ n ∈ here, IsPlain n) → (∀ n, .name n ∈ cs → IsPlain n) →
      name ∈ cs.foldl Component.follow here → IsPlain name
  | [], _, hhere, _, h => hhere name h
  | c :: cs, here, hhere, hcs, h => by
    refine isPlain_of_mem_foldl cs (fun n hn => ?_)
      (fun n hn => hcs n (List.mem_cons_of_mem _ hn)) h
    cases c with
    | root => cases hn
    | current => exact hhere n hn
    | parent => exact hhere n (List.dropLast_subset _ hn)
    | name m =>
      rcases List.mem_append.1 hn with hn | hn
      · exact hhere n hn
      · rw [List.mem_singleton.1 hn]; exact hcs m (List.mem_cons_self ..)

end TypeGen.Store

namespace TypeGen.Project

open TypeGen.Store TypeGen.Store.FilePath

/-- Making directories adds entries under the names in the path only. -/
theorem hasPlainNames_makeDirectories {d : Disk} (hl : d.tree.NoLinks) (ht : d.tree.HasPlainNames)
    {p : FilePath} (hp : ∀ name, .name name ∈ p.components → IsPlain name) :
    (d.makeDirectories p).1.tree.HasPlainNames := by
  intro place e he name hname
  rcases d.get?_makeDirectories hl p place with hsame | ⟨cs, hcs, rfl⟩
  · exact ht place e (hsame.symm.trans he) name hname
  · exact isPlain_of_mem_foldl _ (ht d.home _ d.home_isDirectory)
      (fun n hn => hp n (hcs.subset hn)) hname

/-- Saving, too, adds entries under the names in the path only. -/
theorem hasPlainNames_save {d d' : Disk} (hl : d.tree.NoLinks) (ht : d.tree.HasPlainNames)
    {p : FilePath} {text : String} {r : Except Fault Unit} (h : save d p text = (d', r))
    (hp : ∀ name, .name name ∈ p.components → IsPlain name) : d'.tree.HasPlainNames := by
  cases r with
  | ok =>
    intro place e he name hname
    have hhome : ∀ n ∈ d.home, IsPlain n := ht d.home _ d.home_isDirectory
    rcases get?_save hl h place with hsame | ⟨rfl, -⟩ | ⟨-, cs, hcs, rfl⟩
    · exact ht place e (hsame.symm.trans he) name hname
    · exact isPlain_of_mem_foldl _ hhome hp hname
    · exact isPlain_of_mem_foldl _ hhome
        (fun n hn => hp n (List.dropLast_subset _ (hcs.subset hn))) hname
  | error fault =>
    rcases eq_makeDirectories_of_save h with rfl | ⟨parent, hparent, rfl⟩
    · exact ht
    · refine hasPlainNames_makeDirectories hl ht fun n hn => hp n ?_
      rw [components_of_parent? hparent] at hn
      exact List.dropLast_subset _ hn

end TypeGen.Project
