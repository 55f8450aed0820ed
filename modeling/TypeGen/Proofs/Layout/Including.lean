import TypeGen.Proofs.Layout.Naming
import TypeGen.Proofs.Path.Following

/-!
Including headers. Inside of a library a header is looked for under both sides, and one of these
places is the header itself, written with fewer pieces at most. So a header that is a file is found,
whatever links lead to it.
-/

namespace TypeGen.Project.Layout

open TypeGen.Store TypeGen.Store.FilePath

variable {l : Layout} {d : Disk} {p lib rel : FilePath}

/-- A library around a path is a part of it as it is written, and has both of its sides. -/
theorem around_of_library? (h : l.library? d p = some lib) :
    lib.rooted = p.rooted ∧ lib.pieces <+: p.pieces ∧
      ∀ side, IsSide side → d.isDirectory (lib.child side) = true := by
  rw [library?] at h
  obtain ⟨hr, hpre⟩ := pieces_of_mem_ancestors
    ((List.takeWhile_sublist _).mem (List.mem_of_find?_eq_some h))
  have hsides := List.find?_some h
  rw [Bool.and_eq_true] at hsides
  exact ⟨hr, hpre, fun side hside => by cases hside <;> [exact hsides.1; exact hsides.2]⟩

/-- A name that is the next to count after some pieces is found behind them. -/
theorem concat_sublist_of_counted {above before behind : List String} {name : String}
    (hpre : above <+: before ++ behind) (hc : counted before = counted above ++ [.name name]) :
    (above ++ [name]).Sublist before := by
  rcases List.prefix_or_prefix_of_prefix hpre (List.prefix_append before behind) with h | h
  · obtain ⟨rest, rfl⟩ := h
    rw [counted_append, List.append_cancel_left_eq] at hc
    have hmem : Component.name name ∈ counted rest := by rw [hc]; simp
    obtain ⟨piece, hpiece, hname⟩ := List.mem_filterMap.1 hmem
    obtain rfl : piece = name := componentOf?_eq_name hname
    exact (List.singleton_sublist.2 hpiece).append_left above
  · obtain ⟨rest, rfl⟩ := h
    have hlen := congrArg List.length hc
    simp only [counted_append, List.length_append, List.length_cons] at hlen
    omega

/-- One of the places in a library where a path is looked for is the path itself, unless this is a
whole side of the library. -/
theorem exists_candidate (h : l.inLibrary? d p = some (lib, rel)) (hne : rel.pieces ≠ []) :
    ∃ side, IsSide side ∧ ((lib.child side).join rel).components = p.components ∧
      ((lib.child side).join rel).rooted = p.rooted ∧
      ((lib.child side).join rel).pieces.Sublist p.pieces ∧
      ∃ init last, ((lib.child side).join rel).pieces = init ++ [last] ∧ isIdle last = false := by
  obtain ⟨hlib, side, hs, hr⟩ := relativeTo?_of_inLibrary? h
  obtain ⟨hroot, hpre, -⟩ := around_of_library? hlib
  have hname := componentOf?_of_isPlain hs.isPlain
  have hb : (lib.child side).components ≠ [] := by rw [components_child hs.isPlain]; simp
  obtain ⟨hinner, hp⟩ := relativeTo?_eq_some hb hr
  obtain ⟨before, after, hpieces, hbefore, hlast⟩ := pieces_of_relativeTo? hb hr
  obtain ⟨above, hchild, habove, hcounted⟩ := exists_child_eq hs.isPlain lib
  obtain ⟨init, last, hconcat, hactive⟩ := hlast hne
  have hside : side ≠ "" := fun h0 => by rw [h0] at hname; cases hname
  refine ⟨side, hs, by rw [components_join hinner, hp], ?_⟩
  rw [hchild, join_concat hside hinner.unrooted hne]
  have hsub : (above ++ [side]).Sublist before := by
    have hbehind : above <+: before ++ (rel.pieces ++ after) := by
      rw [← List.append_assoc, ← hpieces]; exact habove.trans hpre
    refine concat_sublist_of_counted hbehind ?_
    rw [hbefore, hchild]
    change counted (above ++ [side]) = _
    rw [counted_append, counted_cons_some hname]; rfl
  refine ⟨hroot, ?_, above ++ side :: init, last, by rw [hconcat]; simp, hactive⟩
  rw [hpieces]
  change (above ++ side :: rel.pieces).Sublist _
  rw [List.append_cons]
  exact (hsub.append_right _).trans (List.sublist_append_left ..)

/-- A side of a library is a directory, so a file in the library has a path behind its side. -/
theorem components_ne_nil_of_isFile (h : l.inLibrary? d p = some (lib, rel))
    (hf : d.isFile p = true) : rel.components ≠ [] := fun hnil => by
  obtain ⟨hlib, -, side, hside, hp⟩ := inLibrary?_eq_some h
  have hdirectory := (around_of_library? hlib).2.2 side hside
  have hends : EndsInName (lib.child side).pieces := by
    obtain ⟨above, hchild, -, -⟩ := exists_child_eq hside.isPlain lib
    rw [hchild]; exact endsInName_concat (componentOf?_of_isPlain hside.isPlain) above
  have hc : p.components = (lib.child side).components := by
    rw [hp, hnil, components_child hside.isPlain]
  have hfile := isFile_congr hc hends (isPath_of_isDirectory hdirectory) hf
  rw [Disk.isDirectory] at hdirectory
  rw [Disk.isFile] at hfile
  split at hfile
  next hloc => rw [hloc] at hdirectory; cases hdirectory
  next => cases hfile

/-- A header that is there is found, so it can be included. -/
theorem includePath_of_isFile (h : d.isFile p = true) : ∃ path, l.includePath d p = .ok path := by
  rw [includePath]
  cases hi : l.inLibrary? d p with
  | none => exact ⟨FilePath.ofString (p.fileName?.getD ""), if_pos (by simp [h])⟩
  | some found =>
    obtain ⟨lib, rel⟩ := found
    have hrel : rel.pieces ≠ [] := fun hnil => components_ne_nil_of_isFile hi h (by
      rw [(inLibrary?_eq_some hi).2.1.components, hnil]; rfl)
    obtain ⟨side, hside, hc, hroot, hsub, init, last, hconcat, hactive⟩ := exists_candidate hi hrel
    obtain ⟨name, -, hname⟩ := (endsInName_of_isFile h).exists_fileName?
    have hfile : d.isFile ((lib.child side).join rel) = true := by
      have hends := endsInName_of_fileName? ((fileName?_congr hc).trans hname) hconcat hactive
      exact isFile_congr hc.symm hends (isPath_of_sublist hroot hsub (isPath_of_isFile h)) h
    refine ⟨rel, if_pos ?_⟩
    cases hside <;> simp [hfile]

end TypeGen.Project.Layout
