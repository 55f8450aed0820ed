import TypeGen.Proofs.Store.Aiming
import TypeGen.Proofs.Store.Saving

/-!
What saving leaves alone. A text that is saved can be read back, and a file at another place keeps
its text; places differ where the names at the ends of the paths do.
-/

namespace TypeGen.Store.Disk

/-- A file of which nothing is taken away is read as before. -/
theorem readText?_of_get? {d d' : Disk} (hl : d.tree.NoLinks) (hl' : d'.tree.NoLinks)
    (hhome : d'.home = d.home) (hgrows : d.tree.Grows d'.tree) {p : FilePath} {s : String}
    (hp : d.readText? p = some s)
    (hkept : ∀ place, d.filePlace? p = some place →
      d.tree.get? place = some (.file (.text s)) → d'.tree.get? place = some (.file (.text s))) :
    d'.readText? p = some s := by
  obtain ⟨place, hplace, hget⟩ := readText?_eq_some.1 hp
  have hget' := hkept place hplace hget
  have hplace' := filePlace?_grows hl hl' hhome hgrows hplace (by rw [hget']; simp)
  exact readText?_eq_some.2 ⟨place, hplace', hget'⟩

theorem OnlyAdds.readText? {d d' : Disk} (h : d.OnlyAdds d') (hl : d.tree.NoLinks) {p : FilePath}
    {s : String} (hp : d.readText? p = some s) : d'.readText? p = some s := by
  refine readText?_of_get? hl (h.noLinks hl) h.home h.grows hp fun place _ hget => ?_
  rcases h.get? place with h' | ⟨h', -⟩
  · rw [h', hget]
  · rw [hget] at h'; cases h'

theorem Saved.readText? {d d' : Disk} {place : Place} {text : String} (h : d.Saved d' place text)
    (hl : d.tree.NoLinks) {p : FilePath} {s : String} (hp : d.readText? p = some s)
    (hne : d.filePlace? p ≠ some place) : d'.readText? p = some s :=
  readText?_of_get? hl (h.noLinks hl) h.home h.grows hp fun _ hplace hget =>
    h.get?_of_ne (fun h0 => hne (hplace.trans (congrArg _ h0))) hget

/-- Everything that a disk has is still in its place, files as files. -/
structure Keeps (d e : Disk) : Prop where
  home : e.home = d.home
  grows : d.tree.Grows e.tree
  isFile : ∀ place c, d.tree.get? place = some (.file c) → ∃ c', e.tree.get? place = some (.file c')

namespace Keeps

variable {d e : Disk}

theorem refl (d : Disk) : d.Keeps d := ⟨rfl, FileTree.Grows.refl _, fun _ c h => ⟨c, h⟩⟩

theorem trans {f : Disk} (h : d.Keeps e) (h' : e.Keeps f) : d.Keeps f where
  home := h'.home.trans h.home
  grows := h.grows.trans h'.grows
  isFile place c hc := by
    obtain ⟨c', hc'⟩ := h.isFile place c hc
    exact h'.isFile place c' hc'

theorem filePlace? (h : d.Keeps e) (hd : d.tree.NoLinks) (he : e.tree.NoLinks) {p : FilePath}
    {place : Place} {c : Content} (hp : d.filePlace? p = some place)
    (hc : d.tree.get? place = some (.file c)) : e.filePlace? p = some place := by
  obtain ⟨c', hc'⟩ := h.isFile place c hc
  exact filePlace?_grows hd he h.home h.grows hp (by rw [hc']; simp)

end Keeps

theorem Saved.keeps {d d' : Disk} {place : Place} {text : String} (h : d.Saved d' place text) :
    d.Keeps d' where
  home := h.home
  grows := h.grows
  isFile q c hc := by
    by_cases hq : q = place
    · exact ⟨_, hq ▸ h.here⟩
    · exact ⟨c, h.get?_of_ne hq hc⟩

end TypeGen.Store.Disk

namespace TypeGen.Project

open TypeGen.Store

theorem noLinks_save {d d' : Disk} (hl : d.tree.NoLinks) {p : FilePath} {text : String}
    {r : Except Fault Unit} (h : save d p text = (d', r)) : d'.tree.NoLinks := by
  cases r with
  | ok =>
    obtain ⟨place, -, hsaved⟩ := saved_of_save hl h
    exact hsaved.noLinks hl
  | error fault => exact (onlyAdds_of_save h).noLinks hl

theorem home_save {d d' : Disk} (hl : d.tree.NoLinks) {p : FilePath} {text : String}
    {r : Except Fault Unit} (h : save d p text = (d', r)) : d'.home = d.home := by
  cases r with
  | ok =>
    obtain ⟨place, -, hsaved⟩ := saved_of_save hl h
    exact hsaved.home
  | error fault => exact (onlyAdds_of_save h).home

theorem grows_save {d d' : Disk} (hl : d.tree.NoLinks) {p : FilePath} {text : String}
    {r : Except Fault Unit} (h : save d p text = (d', r)) : d.tree.Grows d'.tree := by
  cases r with
  | ok =>
    obtain ⟨place, -, hsaved⟩ := saved_of_save hl h
    exact hsaved.grows
  | error fault => exact (onlyAdds_of_save h).grows

/-- The only file that may be new has the name of the path and holds the text. -/
theorem get?_file_of_save {d d' : Disk} (hl : d.tree.NoLinks) {p : FilePath} {text : String}
    {r : Except Fault Unit} (h : save d p text = (d', r)) {place : Place} {c : Content}
    (hc : d'.tree.get? place = some (.file c)) : d.tree.get? place = some (.file c) ∨
      c = .text text ∧ ∃ name, place.getLast? = some name ∧ p.fileName? = some name := by
  cases r with
  | ok =>
    obtain ⟨home, hplace, hsaved⟩ := saved_of_save hl h
    rcases hsaved.get?_file hc with ⟨rfl, rfl⟩ | hold
    · exact .inr ⟨rfl, Disk.getLast?_filePlace? (hsaved.noLinks hl) hplace⟩
    · exact .inl hold
  | error fault => exact .inl ((onlyAdds_of_save h).get?_file hc)

/-- A file keeps its text unless the path that is saved to aims at its place. -/
theorem readText?_of_save_ne {d d' : Disk} (hl : d.tree.NoLinks) {p q : FilePath}
    {text s : String} {r : Except Fault Unit} (h : save d p text = (d', r))
    (hq : d.readText? q = some s) (hne : EndsInName p.pieces → q.aim d.home ≠ p.aim d.home) :
    d'.readText? q = some s := by
  cases r with
  | ok =>
    obtain ⟨place, hplace, hsaved⟩ := saved_of_save hl h
    refine hsaved.readText? hl hq fun hplace' => hne (endsInName_of_save h) ?_
    rw [aim_of_filePlace? hl hplace', ← hsaved.home, aim_of_filePlace? (hsaved.noLinks hl) hplace]
  | error fault => exact (onlyAdds_of_save h).readText? hl hq

end TypeGen.Project
