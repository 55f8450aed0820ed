import TypeGen.Proofs.Layout.Naming
import TypeGen.Proofs.Store.Keeping

/-!
Libraries while files are being written. Directories only come to be, so a path that has the same
library before and after has it all the time, and is included by the same path.
-/

namespace TypeGen.Project

open TypeGen.Store TypeGen.Store.FilePath

theorem find?_between {α : Type} {P Q R : α → Bool} (hPQ : ∀ x, P x = true → Q x = true)
    (hQR : ∀ x, Q x = true → R x = true) : ∀ {xs : List α}, xs.find? P = xs.find? R →
      xs.find? Q = xs.find? R
  | [], _ => rfl
  | x :: xs, h => by
    by_cases hr : R x = true
    · rw [List.find?_cons_of_pos hr] at h ⊢
      exact List.find?_cons_of_pos (hPQ x (List.find?_some h))
    · have hq : ¬ Q x = true := fun hq => hr (hQR x hq)
      have hp : ¬ P x = true := fun hp => hq (hPQ x hp)
      rw [List.find?_cons_of_neg hp, List.find?_cons_of_neg hr] at h
      rw [List.find?_cons_of_neg hq, List.find?_cons_of_neg hr]
      exact find?_between hPQ hQR h

/-- Everything that a disk has is still there, files as files. -/
structure Extends (d e : Disk) : Prop where
  home : e.home = d.home
  grows : d.tree.Grows e.tree
  isFile : ∀ p, d.isFile p = true → e.isFile p = true

theorem extends_of_keeps {d e : Disk} (hd : d.tree.NoLinks) (he : e.tree.NoLinks)
    (h : d.Keeps e) : Extends d e where
  home := h.home
  grows := h.grows
  isFile p hp := by
    obtain ⟨place, c, hplace, hget⟩ := Disk.isFile_eq_true.1 hp
    obtain ⟨c', hget'⟩ := h.isFile place c hget
    exact Disk.isFile_eq_true.2 ⟨place, c', h.filePlace? hd he hplace hget, hget'⟩

theorem extends_save {d d' : Disk} (hl : d.tree.NoLinks) {p : FilePath} {text : String}
    (h : save d p text = (d', .ok ())) : Extends d d' := by
  obtain ⟨place, -, hsaved⟩ := saved_of_save hl h
  exact extends_of_keeps hl (hsaved.noLinks hl) hsaved.keeps

namespace Layout

variable {l : Layout} {c d e : Disk} {header : FilePath}

theorem library?_between (hc : c.tree.NoLinks) (hd : d.tree.NoLinks) (hcd : Extends c d)
    (hde : Extends d e) {p : FilePath} (h : l.library? c p = l.library? e p) :
    l.library? d p = l.library? e p := by
  refine find?_between (fun dir hdir => ?_) (fun dir hdir => ?_) h
  · rw [Bool.and_eq_true] at hdir ⊢
    exact hdir.imp (Disk.isDirectory_grows hc hcd.home hcd.grows)
      (Disk.isDirectory_grows hc hcd.home hcd.grows)
  · rw [Bool.and_eq_true] at hdir ⊢
    exact hdir.imp (Disk.isDirectory_grows hd hde.home hde.grows)
      (Disk.isDirectory_grows hd hde.home hde.grows)

theorem inLibrary?_congr (h : l.library? d header = l.library? e header) :
    l.inLibrary? d header = l.inLibrary? e header := by
  rw [inLibrary?, inLibrary?, h]

theorem sourcePath_congr (h : l.library? d header = l.library? e header) :
    l.sourcePath d header = l.sourcePath e header := by
  rw [sourcePath, sourcePath, inLibrary?_congr h]

/-- With the same library, a header is looked for at the same paths. -/
theorem exists_includePath (h : l.library? d header = l.library? e header) : ∃ path candidates,
    l.includePath d header =
      (if candidates.any d.isFile = true then .ok path else .error ⟨header, candidates⟩) ∧
    l.includePath e header =
      (if candidates.any e.isFile = true then .ok path else .error ⟨header, candidates⟩) := by
  rw [includePath, includePath, ← inLibrary?_congr h]
  cases l.inLibrary? d header with
  | none => exact ⟨_, _, rfl, rfl⟩
  | some found => exact ⟨_, _, rfl, rfl⟩

/-- A header is included by one path only, as long as it has the same library. -/
theorem includePath_inj (h : l.library? d header = l.library? e header) {a b : FilePath}
    (ha : l.includePath d header = .ok a) (hb : l.includePath e header = .ok b) : a = b := by
  obtain ⟨path, candidates, hd, he⟩ := exists_includePath h
  rw [hd] at ha
  rw [he] at hb
  split at ha <;> cases ha
  split at hb <;> cases hb
  rfl

/-- A header that is included still is, by the same path, as long as it has the same library. -/
theorem includePath_extends (hde : Extends d e) {path : FilePath}
    (h : l.library? d header = l.library? e header) (hpath : l.includePath d header = .ok path) :
    l.includePath e header = .ok path := by
  obtain ⟨found, candidates, hd, he⟩ := exists_includePath h
  rw [hd] at hpath
  rw [he]
  split at hpath
  next hany =>
    obtain ⟨p, hp, hfile⟩ := List.any_eq_true.1 hany
    rw [if_pos (List.any_eq_true.2 ⟨p, hp, hde.isFile p hfile⟩), hpath]
  next => cases hpath

end Layout

end TypeGen.Project
