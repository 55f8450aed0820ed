import TypeGen.Project.Fault
import TypeGen.Proofs.Store.Places

/-!
Saving files. A text that is saved ends up at the place of its path; apart from that place only
directories come to be, where nothing was.
-/

namespace TypeGen.Store.Disk

open FilePath

theorem put?_eq_some {d d' : Disk} {place : Place} {e : Entry} (h : d.put? place e = some d') :
    d'.home = d.home ∧ d.tree.put? place e = some d'.tree := by
  rw [put?] at h
  split at h
  next t ht => cases h; exact ⟨rfl, ht⟩
  next => cases h

/-- Nothing is changed but that there are directories where nothing was. -/
structure OnlyAdds (d d' : Disk) : Prop where
  home : d'.home = d.home
  get? : ∀ q, d'.tree.get? q = d.tree.get? q ∨
    d.tree.get? q = none ∧ d'.tree.get? q = some .directory

namespace OnlyAdds

theorem refl (d : Disk) : d.OnlyAdds d := ⟨rfl, fun _ => .inl rfl⟩

theorem trans {d e f : Disk} (h : d.OnlyAdds e) (h' : e.OnlyAdds f) : d.OnlyAdds f where
  home := h'.home.trans h.home
  get? q := by
    rcases h.get? q with hq | ⟨hn, hd⟩
    · rw [← hq]; exact h'.get? q
    · rcases h'.get? q with hq' | ⟨hn', -⟩
      · exact .inr ⟨hn, hq'.trans hd⟩
      · rw [hd] at hn'; cases hn'

theorem grows {d d' : Disk} (h : d.OnlyAdds d') : d.tree.Grows d'.tree := fun q hq => by
  rcases h.get? q with h' | ⟨-, h'⟩
  · rw [h', hq]
  · exact h'

theorem get?_file {d d' : Disk} (h : d.OnlyAdds d') {q : Place} {c : Content}
    (hq : d'.tree.get? q = some (.file c)) : d.tree.get? q = some (.file c) := by
  rcases h.get? q with h' | ⟨-, h'⟩
  · rw [← h', hq]
  · rw [hq] at h'; cases h'

theorem noLinks {d d' : Disk} (h : d.OnlyAdds d') (hl : d.tree.NoLinks) : d'.tree.NoLinks :=
  fun q target hq => by
    rcases h.get? q with h' | ⟨-, h'⟩
    · exact hl q target (h'.symm.trans hq)
    · rw [hq] at h'; cases h'

end OnlyAdds

theorem onlyAdds_makeDirectory {d d' : Disk} {p : FilePath}
    (h : d.makeDirectory p = .ok d') : d.OnlyAdds d' := by
  have hagrees := d.locate_agrees false p
  rw [makeDirectory] at h
  split at h
  next place slashed hloc =>
    rw [hloc] at hagrees
    split at h
    next e hput =>
      cases h
      obtain ⟨hhome, ht⟩ := put?_eq_some hput
      refine ⟨hhome, fun q => ?_⟩
      rw [FileTree.get?_of_put? ht]
      split
      next hq => exact .inr ⟨hq ▸ hagrees.1, rfl⟩
      next => exact .inl rfl
    next => cases h
  next => cases h
  next => cases h

theorem onlyAdds_makeChain : ∀ (ps : List FilePath) (d : Disk), d.OnlyAdds (d.makeChain ps).1
  | [], d => OnlyAdds.refl d
  | p :: above, d => by
    rw [makeChain]
    split
    · exact OnlyAdds.refl d
    · split
      next hok => exact onlyAdds_makeDirectory hok
      next => exact OnlyAdds.refl d
      next =>
        have habove := onlyAdds_makeChain above d
        split
        next hchain => rw [hchain] at habove; exact habove
        next e hchain =>
          rw [hchain] at habove
          split
          next hok => exact habove.trans (onlyAdds_makeDirectory hok)
          next => exact habove

theorem onlyAdds_makeDirectories (d : Disk) (p : FilePath) :
    d.OnlyAdds (d.makeDirectories p).1 := onlyAdds_makeChain _ d

/-- A text is at a place, and apart from it there is nothing new but directories. -/
structure Saved (d d' : Disk) (place : Place) (text : String) : Prop where
  home : d'.home = d.home
  here : d'.tree.get? place = some (.file (.text text))
  free : d.tree.get? place ≠ some .directory
  elsewhere : ∀ q, q ≠ place → d'.tree.get? q = d.tree.get? q ∨
    d.tree.get? q = none ∧ d'.tree.get? q = some .directory

namespace Saved

variable {d d' : Disk} {place : Place} {text : String}

theorem grows (h : d.Saved d' place text) : d.tree.Grows d'.tree := fun q hq => by
  rcases h.elsewhere q (fun h0 => h.free (h0 ▸ hq)) with h' | ⟨-, h'⟩
  · rw [h', hq]
  · exact h'

theorem noLinks (h : d.Saved d' place text) (hl : d.tree.NoLinks) : d'.tree.NoLinks :=
  fun q target hq => by
    by_cases hp : q = place
    · rw [hp, h.here] at hq; cases hq
    · rcases h.elsewhere q hp with h' | ⟨-, h'⟩
      · exact hl q target (h'.symm.trans hq)
      · rw [hq] at h'; cases h'

theorem get?_file (h : d.Saved d' place text) {q : Place} {c : Content}
    (hq : d'.tree.get? q = some (.file c)) :
    q = place ∧ c = .text text ∨ d.tree.get? q = some (.file c) := by
  by_cases hp : q = place
  · rw [hp, h.here] at hq; cases hq; exact .inl ⟨hp, rfl⟩
  · rcases h.elsewhere q hp with h' | ⟨-, h'⟩
    · exact .inr (h'.symm.trans hq)
    · rw [hq] at h'; cases h'

/-- Files at other places stay as they are. -/
theorem get?_of_ne (h : d.Saved d' place text) {q : Place} (hp : q ≠ place) {c : Content}
    (hq : d.tree.get? q = some (.file c)) : d'.tree.get? q = some (.file c) := by
  rcases h.elsewhere q hp with h' | ⟨h', -⟩
  · rw [h', hq]
  · rw [hq] at h'; cases h'

end Saved

end TypeGen.Store.Disk

namespace TypeGen.Project

open TypeGen.Store

theorem endsInName_of_save {d d' : Disk} {p : FilePath} {text : String}
    (h : save d p text = (d', .ok ())) : EndsInName p.pieces := by
  have hinto : ∀ e : Disk, saveInto e p text = (d', .ok ()) → EndsInName p.pieces := fun e he => by
    rw [saveInto] at he
    split at he
    next hw => exact endsInName_of_write? hw
    next => cases he
  rw [save] at h
  split at h
  · exact hinto d h
  · split at h
    next e _ => exact hinto e h
    next => cases h

theorem write?_eq_some {d d' : Disk} {p : FilePath} {c : Content} (h : d.write? p c = some d') :
    ∃ place, d.filePlace? p = some place ∧ d.put? place (.file c) = some d' := by
  rw [Disk.write?] at h
  split at h
  next place c' hloc => exact ⟨place, by rw [Disk.filePlace?, hloc]; rfl, h⟩
  next place hloc => exact ⟨place, by rw [Disk.filePlace?, hloc]; rfl, h⟩
  next => cases h

/-- What has been written is found by the same path, whatever links lead there. -/
theorem locate_of_write? {d d' : Disk} {p : FilePath} {c : Content} (h : d.write? p c = some d') :
    ∃ place, d'.locate true p = .found place (.file c) := by
  obtain ⟨place, hplace, hput⟩ := write?_eq_some h
  obtain ⟨hhome, ht⟩ := Disk.put?_eq_some hput
  have hlink := (d.locate_agrees true p).ne_link hplace
  refine ⟨place, ?_⟩
  rw [Disk.filePlace?] at hplace
  rw [Disk.locate] at hplace ⊢
  split at hplace
  · cases hplace
  · split at hplace
    · cases hplace
    next hempty hpath =>
      rw [if_neg hempty, if_neg hpath, hhome]
      exact FileTree.resolve_put? ht hlink _ _ _ hplace

/-- What has been saved is there to be read. -/
theorem readText?_of_save {d d' : Disk} {p : FilePath} {text : String}
    (h : save d p text = (d', .ok ())) : d'.readText? p = some text := by
  have hinto : ∀ e : Disk, saveInto e p text = (d', .ok ()) → d'.readText? p = some text :=
    fun e he => by
      rw [saveInto] at he
      split at he
      next hw =>
        cases he
        obtain ⟨place, hloc⟩ := locate_of_write? hw
        exact Disk.readText?_eq_some_iff.2 (Disk.read_eq_ok.2 ⟨place, hloc⟩)
      next => cases he
  rw [save] at h
  split at h
  · exact hinto d h
  · split at h
    next e _ => exact hinto e h
    next => cases h

theorem saved_of_saveInto {d d' : Disk} (hl : d.tree.NoLinks) {p : FilePath} {text : String}
    (h : saveInto d p text = (d', .ok ())) :
    ∃ place, d'.filePlace? p = some place ∧ d.Saved d' place text := by
  rw [saveInto] at h
  split at h
  next hw =>
    cases h
    obtain ⟨place, hplace, hput⟩ := write?_eq_some hw
    obtain ⟨hhome, ht⟩ := Disk.put?_eq_some hput
    have hget := FileTree.get?_of_put? ht
    have hsaved : d.Saved d' place text := {
      home := hhome
      here := by rw [hget, if_pos rfl]
      free := fun hd => by
        have := FileTree.get?_directory_of_put? ht hd
        rw [hget, if_pos rfl] at this; cases this
      elsewhere := fun q hq => .inl (by rw [hget, if_neg hq]) }
    exact ⟨place, Disk.filePlace?_grows hl (hsaved.noLinks hl) hhome hsaved.grows hplace
      (by rw [hsaved.here]; simp), hsaved⟩
  next => cases h

theorem saved_of_save {d d' : Disk} (hl : d.tree.NoLinks) {p : FilePath} {text : String}
    (h : save d p text = (d', .ok ())) :
    ∃ place, d'.filePlace? p = some place ∧ d.Saved d' place text := by
  rw [save] at h
  split at h
  · exact saved_of_saveInto hl h
  next parent _ =>
    have hadds := d.onlyAdds_makeDirectories parent
    split at h
    next e hmake =>
      rw [hmake] at hadds
      obtain ⟨place, hplace, hsaved⟩ := saved_of_saveInto (hadds.noLinks hl) h
      refine ⟨place, hplace, hsaved.home.trans hadds.home, hsaved.here, fun hd =>
        hsaved.free (hadds.grows _ hd), fun q hq => ?_⟩
      rcases hsaved.elsewhere q hq with h' | ⟨hn, h'⟩
      · rw [h']; exact hadds.get? q
      · rcases hadds.get? q with h'' | ⟨-, h''⟩
        · exact .inr ⟨h''.symm.trans hn, h'⟩
        · rw [hn] at h''; cases h''
    next => cases h

/-- What is left where a text could not be saved. -/
theorem eq_makeDirectories_of_save {d d' : Disk} {p : FilePath} {text : String} {fault : Fault}
    (h : save d p text = (d', .error fault)) :
    d' = d ∨ ∃ parent, p.parent? = some parent ∧ d' = (d.makeDirectories parent).1 := by
  have hinto : ∀ e : Disk, saveInto e p text = (d', .error fault) → d' = e := fun e he => by
    rw [saveInto] at he
    split at he
    next => cases he
    next => exact (Prod.mk.inj he).1.symm
  rw [save] at h
  split at h
  · exact .inl (hinto d h)
  next parent hparent =>
    refine .inr ⟨parent, hparent, ?_⟩
    split at h
    next e hmake => rw [hmake]; exact hinto e h
    next e hmake => rw [hmake]; exact (Prod.mk.inj h).1.symm

theorem onlyAdds_of_save {d d' : Disk} {p : FilePath} {text : String}
    {fault : Fault} (h : save d p text = (d', .error fault)) : d.OnlyAdds d' := by
  rcases eq_makeDirectories_of_save h with rfl | ⟨parent, -, rfl⟩
  · exact Disk.OnlyAdds.refl _
  · exact d.onlyAdds_makeDirectories parent

end TypeGen.Project
