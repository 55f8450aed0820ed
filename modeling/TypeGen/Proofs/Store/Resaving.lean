import Mathlib.Data.List.Sort
import TypeGen.Proofs.Store.Saving

/-!
Saving where a file is already. The directory of a file can be followed if the file can, so nothing
has to be made, and nothing but the file is changed; writing a text over itself leaves the disk as it
is.
-/

namespace TypeGen.Store

open FilePath

/-! ### Disks that answer alike -/

/-- Trees that answer alike are equal. -/
theorem FileTree.eq_of_get? {t u : FileTree} (h : ∀ place, t.get? place = u.get? place) : t = u := by
  have hasymm : Std.Antisymm fun x y : Place × Entry => x.1 < y.1 :=
    ⟨fun _ _ hlt hlt' => absurd (Std.lt_trans hlt hlt') Std.lt_irrefl⟩
  have hirrefl : Std.Irrefl fun x y : Place × Entry => x.1 < y.1 := ⟨fun _ => Std.lt_irrefl⟩
  have hentries : t.entries = u.entries := by
    refine t.sorted.eq_of_mem_iff u.sorted fun ⟨place, e⟩ => ?_
    rw [mem_entries, mem_entries, h]
  cases t
  cases u
  simpa using hentries

theorem Disk.eq_of_get? {d e : Disk} (hhome : e.home = d.home)
    (h : ∀ place, e.tree.get? place = d.tree.get? place) : e = d := by
  have htree := FileTree.eq_of_get? h
  cases d
  cases e
  simp_all

/-! ### Writing over a file -/

/-- Where a file is, or may be put, an entry may be put. -/
theorem Disk.exists_write? {d : Disk} {p : FilePath} {place : Place} (h : d.filePlace? p = some place)
    (c : Content) : ∃ e, d.write? p c = some e ∧ e.home = d.home ∧
      ∀ q, e.tree.get? q = if q = place then some (.file c) else d.tree.get? q := by
  have hagrees := d.locate_agrees true p
  have hopen : d.tree.isOpen place = true ∧ d.write? p c = d.put? place (.file c) := by
    rw [filePlace?] at h
    rcases Spot.filePlace?_eq_some.1 h with ⟨c', hloc⟩ | hloc
    · rw [hloc] at hagrees
      have hget : d.tree.get? place = some (.file c') := hagrees
      refine ⟨?_, by rw [write?, hloc]⟩
      rcases FileTree.get?_dropLast (by rw [hget]; rfl) with rfl | hd
      · rw [show d.tree.get? [] = some .directory from d.tree.root] at hget; cases hget
      · have hne : place ≠ [] := fun h0 => by
          rw [h0, show d.tree.get? [] = some .directory from d.tree.root] at hget; cases hget
        simp [FileTree.isOpen, hne, hd, hget]
    · rw [hloc] at hagrees
      obtain ⟨hnone, hne, hd⟩ := hagrees
      exact ⟨by simp [FileTree.isOpen, hne, hd, hnone], by rw [write?, hloc]⟩
  have hput : ∃ e, d.put? place (.file c) = some e := by
    rw [put?]
    split
    · exact ⟨_, rfl⟩
    next hn => rw [FileTree.put?, dif_pos hopen.1] at hn; cases hn
  obtain ⟨e, he⟩ := hput
  obtain ⟨hhome, ht⟩ := put?_eq_some he
  exact ⟨e, hopen.2.trans he, hhome, FileTree.get?_of_put? ht⟩

namespace Disk

/-- The way to a file, its name taken off, is a way to the directory of the file. -/
theorem trail_parent {d : Disk} (hl : d.tree.NoLinks) (through : Bool) {p q : FilePath}
    {place : Place} (hplace : d.filePlace? p = some place) (hq : p.parent? = some q) :
    d.tree.trail through (d.startOf q) q.pieces = .spot (.found place.dropLast .directory) := by
  obtain ⟨name, -, hn⟩ := getLast?_filePlace? hl hplace
  obtain ⟨-, -, hway⟩ := (filePlace?_eq_some hl).1 hplace
  rw [counted_of_parent? hn hq] at hway
  have hstart : d.startOf q = d.startOf p := by rw [startOf, startOf, rooted_of_parent? hq]
  rw [hstart]
  exact trail_eq_directory.2 hway.reaches.1

theorem isPath_parent {d : Disk} (hl : d.tree.NoLinks) {p q : FilePath} {place : Place}
    (hplace : d.filePlace? p = some place) (hq : p.parent? = some q) : isPath q = true :=
  isPath_of_sublist (rooted_of_parent? hq) (prefix_of_parent? hq).sublist
    ((filePlace?_eq_some hl).1 hplace).1

/-- The directories above a file are there. -/
theorem makeDirectories_parent {d : Disk} (hl : d.tree.NoLinks) {p q : FilePath} {place : Place}
    (hplace : d.filePlace? p = some place) (hq : p.parent? = some q) :
    d.makeDirectories q = (d, true) := by
  obtain ⟨above, habove⟩ : ∃ above, q.ancestors = q :: above := by
    rw [ancestors, ancestors.go]
    split <;> exact ⟨_, rfl⟩
  rw [makeDirectories, habove, makeChain]
  split
  · rfl
  next hne =>
    have hpieces : q.pieces ≠ [] ∨ q.rooted = true := by
      by_contra h
      rw [not_or] at h
      have hr : q.rooted = false := by simpa using h.2
      have hp : q.pieces = [] := by simpa using h.1
      exact hne (by simp [components, head?, hp, hr])
    have hloc : ∀ through, d.locate through q = .found place.dropLast .directory := fun through =>
      locate_of_trail hpieces (isPath_parent hl hplace hq) (trail_parent hl through hplace hq)
    rw [makeDirectory, hloc]
    simp only [isDirectory, hloc]

end Disk

end TypeGen.Store

namespace TypeGen.Project

open TypeGen.Store

/-- Where a file is, or may be put, a text is saved and nothing else is changed. -/
theorem exists_save {d : Disk} (hl : d.tree.NoLinks) {p : FilePath} {place : Place}
    (h : d.filePlace? p = some place) (text : String) : ∃ e, save d p text = (e, .ok ()) ∧
      e.home = d.home ∧
      ∀ q, e.tree.get? q = if q = place then some (.file (.text text)) else d.tree.get? q := by
  obtain ⟨e, hwrite, hhome, hget⟩ := d.exists_write? h (.text text)
  obtain ⟨name, -, hn⟩ := Disk.getLast?_filePlace? hl h
  obtain ⟨q, hq⟩ := FilePath.exists_parent?_of_fileName? hn
  refine ⟨e, ?_, hhome, hget⟩
  rw [save, hq]
  simp only [Disk.makeDirectories_parent hl h hq, saveInto, hwrite]

/-- A text that a file already has is saved without a change. -/
theorem save_self {d : Disk} (hl : d.tree.NoLinks) {p : FilePath} {text : String}
    (h : d.readText? p = some text) : save d p text = (d, .ok ()) := by
  obtain ⟨place, hplace, hget⟩ := Disk.readText?_eq_some.1 h
  obtain ⟨e, hsave, hhome, hget'⟩ := exists_save hl hplace text
  obtain rfl : e = d := Disk.eq_of_get? hhome fun q => by
    rw [hget']
    split
    next hq => rw [hq, hget]
    next => rfl
  exact hsave

end TypeGen.Project
