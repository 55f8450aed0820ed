import Mathlib.Data.List.Find
import TypeGen.Proofs.Layout.Destinations
import TypeGen.Proofs.Layout.Including
import TypeGen.Proofs.Store.Keeping
import TypeGen.Proofs.Store.Passing

/-!
Libraries that stay. Directories are made for a spec only under the sources of its library, and only
if the spec is with the headers there. A new library is therefore around no spec but such as a walk
comes to later, since `include` is ahead of `src`; and it is not around the spec itself, unless that
goes back up on its way.
-/

namespace TypeGen.Project

open TypeGen.Spec TypeGen.Store TypeGen.Store.FilePath

namespace Layout

variable {l : Layout} {c d e : Disk}

/-- Only the sides of the directories around a path tell its library. -/
theorem library?_congr {p : FilePath} (h : ∀ dir ∈ p.ancestors.drop 1,
    l.root.components <+: dir.components → ∀ side, IsSide side →
      d.isDirectory (dir.child side) = e.isDirectory (dir.child side)) :
    l.library? d p = l.library? e p := by
  rw [library?, library?]
  refine List.find?_congr fun dir hdir => ?_
  have hstarts : dir.startsWith l.root = true :=
    List.mem_takeWhile_imp (p := fun x : FilePath => x.startsWith l.root) hdir
  have hroot := List.isPrefixOf_iff_prefix.1 hstarts
  have haround := (List.takeWhile_sublist _).subset hdir
  rw [h dir haround hroot _ .headers, h dir haround hroot _ .sources]

/-- Disks with the same directories have the same libraries. -/
theorem library?_of_same (hd : d.tree.NoLinks) (he : e.tree.NoLinks) (hhome : e.home = d.home)
    (hg : d.tree.Grows e.tree) (hg' : e.tree.Grows d.tree) {p : FilePath} :
    l.library? d p = l.library? e p :=
  library?_congr fun _ _ _ _ _ => Bool.eq_iff_iff.2
    ⟨Disk.isDirectory_grows hd hhome hg, Disk.isDirectory_grows he hhome.symm hg'⟩

/-- A path has another library only where a side of one has come to be. -/
theorem library?_of_grows (hd : d.tree.NoLinks) (he : e.tree.NoLinks) (hhome : e.home = d.home)
    (hg : d.tree.Grows e.tree) {p : FilePath} (hpass : d.Passes p.components.dropLast)
    (hnew : ∀ dir ∈ p.ancestors.drop 1, ∀ side, IsSide side → l.root.components <+: dir.components →
      e.tree.get? (dir.aim d.home ++ [side]) = some .directory →
      d.tree.get? (dir.aim d.home ++ [side]) = some .directory) :
    l.library? d p = l.library? e p := by
  refine library?_congr fun dir haround hroot side hside => Bool.eq_iff_iff.2 ⟨?_, fun h => ?_⟩
  · exact Disk.isDirectory_grows hd hhome hg
  · have hpre := prefix_of_mem_ancestors haround
    have hpass' := Disk.passes_of_isDirectory he h
    rw [components_child hside.isPlain] at hpass'
    have hlast := hpass' _ List.prefix_rfl
    rw [hhome, List.foldl_append] at hlast
    refine Disk.isDirectory_of_passes he hd hhome.symm h ?_
    rw [components_child hside.isPlain]
    refine (hpass.mono hpre).concat ?_
    rw [List.foldl_append]
    exact hnew dir haround side hside hroot hlast

namespace IsHeaderOf

variable {stem stem' : String} {k k' : Kind} {p q header header' : FilePath}

theorem dropLast_components (h : IsHeaderOf l stem k q header) (hl : l.IsFlat) :
    header.components.dropLast = q.components.dropLast := by
  rw [h.components_of_flat hl, List.dropLast_concat]

/-- The directory of a source is that of its spec, or what is in its place under the sources. -/
theorem dropLast_source (h : IsHeaderOf l stem k q header) (hl : l.IsFlat) (d : Disk) :
    (l.sourcePath d header).components.dropLast = q.components.dropLast ∨
      ∃ lib inner, l.library? d header = some lib ∧
        (l.sourcePath d header).components.dropLast =
          lib.components ++ .name sourceDirectory :: inner ∧
        q.components.dropLast = lib.components ++ .name includeDirectory :: inner := by
  obtain ⟨name, hn, hs⟩ := h.exists_fileName?
  rw [components_sourcePath hn hs, List.dropLast_concat, mirrored]
  split
  next lib rel hi =>
    obtain ⟨hlib, -, side, hside, hc⟩ := inLibrary?_eq_some hi
    rw [h.components_of_flat hl] at hc
    have hne : Component.name (stem ++ l.headerSuffix) ≠ .name side := fun h0 =>
      ne_side hside (dot_mem_header l stem) (Component.name.inj h0)
    obtain ⟨inner, hinner, hdir⟩ := exists_of_append_cons hne hc.symm
    rw [hinner, ← List.cons_append, ← List.append_assoc, List.dropLast_concat, hdir]
    cases hside with
    | headers => exact .inr ⟨lib, inner, hlib, rfl, rfl⟩
    | sources => exact .inl rfl
  next => exact .inl (h.dropLast_components hl)

variable {text text' : String}

/-- Where a directory comes to be when a spec is generated. -/
theorem exists_of_new_directory (h : IsHeaderOf l stem k q header) (hl : l.IsFlat)
    (hc : c.tree.NoLinks) (hpass : c.Passes q.components.dropLast)
    (hs : save c header text = (d, .ok ())) (hs' : save d (l.sourcePath c header) text' = (e, .ok ()))
    {place : Place} (hold : c.tree.get? place ≠ some .directory)
    (hnew : e.tree.get? place = some .directory) : ∃ lib inner, inner ≠ [] ∧
      l.root.components <+: lib ∧ lib ++ .name includeDirectory :: inner <+: q.components.dropLast ∧
      place = (lib ++ .name sourceDirectory :: inner).foldl Component.follow c.home := by
  have hd := noLinks_save hc hs
  have hdone : ∀ cs, cs <+: q.components.dropLast →
      place ≠ cs.foldl Component.follow c.home := fun cs hcs h0 => hold (h0 ▸ hpass cs hcs)
  have hheader : d.tree.get? place ≠ some .directory := fun h0 => by
    rcases get?_save hc hs place with hsame | ⟨-, hfile⟩ | ⟨-, cs, hcs, hplace⟩
    · exact hold (hsame.symm.trans h0)
    · rw [h0] at hfile; cases hfile
    · exact hdone cs (h.dropLast_components hl ▸ hcs) hplace
  rcases get?_save hd hs' place with hsame | ⟨-, hfile⟩ | ⟨-, cs, hcs, hplace⟩
  · exact absurd (hsame.symm.trans hnew) hheader
  · rw [hnew] at hfile; cases hfile
  · rw [home_save hc hs] at hplace
    rcases h.dropLast_source hl c with hdir | ⟨lib, inner, hlib, hdir, hq⟩
    · exact absurd hplace (hdone cs (hdir ▸ hcs))
    · have hsources : c.Passes (lib.components ++ [.name sourceDirectory]) := by
        rw [← components_child IsSide.sources.isPlain]
        exact Disk.passes_of_isDirectory hc ((around_of_library? hlib).2.2 _ .sources)
      have hup : ¬ cs <+: lib.components ++ [.name sourceDirectory] := fun hup =>
        hold (hplace ▸ hsources cs hup)
      rw [hdir, List.append_cons] at hcs
      rcases List.prefix_or_prefix_of_prefix hcs (List.prefix_append _ inner) with h0 | ⟨rest, rfl⟩
      · exact absurd h0 hup
      · have hrest := (List.prefix_append_right_inj _).1 hcs
        refine ⟨lib.components, rest, fun h0 => hup (by rw [h0, List.append_nil]),
          root_prefix_library? hlib, ?_, by rw [hplace, ← List.append_cons]⟩
        rw [hq]
        exact (List.prefix_append_right_inj _).2 (List.cons_prefix_cons.2 ⟨rfl, hrest⟩)

/-- What is between a path and one that it leads to is reached by names. -/
theorem exists_names_between {cs ds : List Component} {names : List String} (h : cs <+: ds)
    (h' : ds <+: cs ++ names.map .name) :
    ∃ inner, inner <+: names ∧ ds = cs ++ inner.map .name := by
  obtain ⟨rest, rfl⟩ := h
  obtain ⟨inner, hinner, rfl⟩ := List.prefix_map_iff.1 ((List.prefix_append_right_inj _).1 h')
  exact ⟨inner, hinner, rfl⟩

/-- What is among the headers comes ahead of all that its place among the sources is around. -/
theorem lt_of_mirrored {here ds as below tail tail' : Place} {side : String} (hne : below ≠ [])
    (h : ds ++ [side] = as ++ sourceDirectory :: below) :
    here ++ (as ++ (includeDirectory :: below ++ tail')) < here ++ (ds ++ tail) := by
  obtain ⟨inner, last, rfl⟩ : ∃ inner last, below = inner ++ [last] := by
    rcases List.eq_nil_or_concat below with rfl | ⟨inner, last, rfl⟩
    · exact absurd rfl hne
    · exact ⟨inner, last, List.concat_eq_append ..⟩
  rw [← List.cons_append, ← List.append_assoc] at h
  obtain ⟨rfl, -⟩ := List.append_inj' h rfl
  rw [List.append_assoc]
  have hlt : includeDirectory < sourceDirectory := by decide
  exact List.append_left_lt (List.append_left_lt (List.cons_lt_cons_iff.2 (.inl hlt)))

/-- The library of a spec is left as it is when a spec is generated that a walk comes to later. -/
theorem library?_of_saves (h : IsHeaderOf l stem k p header) (h' : IsHeaderOf l stem' k' q header')
    (hl : l.IsFlat) (hc : c.tree.NoLinks) (hp : l.root.LeadsTo p.components)
    (hq : l.root.LeadsTo q.components) (hpass : c.Passes p.components.dropLast)
    (hpass' : c.Passes q.components.dropLast) (hle : ¬ q.aim c.home < p.aim c.home)
    (hs : save c header' text = (d, .ok ()))
    (hs' : save d (l.sourcePath c header') text' = (e, .ok ())) :
    l.library? c header = l.library? e header := by
  have hd := noLinks_save hc hs
  have hhome := (home_save hd hs').trans (home_save hc hs)
  have hgrows := (grows_save hc hs).trans (grows_save hd hs')
  refine library?_of_grows hc (noLinks_save hd hs') hhome hgrows
    (h.dropLast_components hl ▸ hpass) fun around haround side hside hroot hnew => ?_
  have hdir := prefix_of_mem_ancestors haround
  rw [aim] at hnew ⊢
  generalize around.components = dir at hroot hdir hnew ⊢
  by_contra hold
  obtain ⟨lib, inner, hne, hlib, hinner, hplace⟩ :=
    h'.exists_of_new_directory hl hc hpass' hs hs' hold hnew
  refine hle ?_
  obtain ⟨names, hnames⟩ := hp
  obtain ⟨names', hnames'⟩ := hq
  -- both the directory and the library are below the root, so all but names can be left out
  rw [h.dropLast_components hl] at hdir
  obtain ⟨ds, ⟨tail, rfl⟩, rfl⟩ :=
    exists_names_between hroot (hnames ▸ hdir.trans (List.dropLast_prefix _))
  obtain ⟨ks, ⟨tail', rfl⟩, hks⟩ := exists_names_between (hlib.trans (List.prefix_append ..))
    (hnames' ▸ hinner.trans (List.dropLast_prefix _))
  obtain ⟨above, rfl⟩ := hlib
  rw [List.append_assoc, List.append_cancel_left_eq] at hks
  obtain ⟨as, bs, rfl, rfl, hbs⟩ := List.map_eq_append_iff.1 hks.symm
  obtain ⟨_, below, rfl, hside, rfl⟩ := List.map_eq_cons_iff.1 hbs
  cases hside
  rw [LeadsTo.aim c.home hnames, LeadsTo.aim c.home hnames']
  have hsame : ds ++ [side] = as ++ sourceDirectory :: below := by
    rw [List.append_assoc, ← List.map_cons, ← List.map_append, List.foldl_append, List.foldl_append,
      foldl_follow_names, foldl_follow_names, List.append_assoc] at hplace
    exact List.append_cancel_left hplace
  rw [List.append_assoc]
  exact lt_of_mirrored (mt List.map_eq_nil_iff.2 hne) hsame

/-- The library of a spec is left as it is when the spec itself is generated. -/
theorem library?_of_own_saves (h : IsHeaderOf l stem k p header) (hl : l.IsFlat)
    (hc : c.tree.NoLinks) (hup : .parent ∉ p.components)
    (hpass : c.Passes p.components.dropLast) (hs : save c header text = (d, .ok ()))
    (hs' : save d (l.sourcePath c header) text' = (e, .ok ())) :
    l.library? c header = l.library? e header := by
  have hd := noLinks_save hc hs
  have hhome := (home_save hd hs').trans (home_save hc hs)
  have hgrows := (grows_save hc hs).trans (grows_save hd hs')
  have hdrop := h.dropLast_components hl
  have hup' : .parent ∉ header.components := by
    rw [h.components_of_flat hl, List.mem_append, not_or]
    exact ⟨fun h0 => hup (List.mem_of_mem_dropLast h0), by simp⟩
  refine library?_of_grows hc (noLinks_save hd hs') hhome hgrows (hdrop ▸ hpass)
    fun dir haround side hside hroot hnew => ?_
  by_contra hold
  obtain ⟨lib, inner, hne, -, hinner, hplace⟩ :=
    h.exists_of_new_directory hl hc hpass hs hs' hold hnew
  obtain ⟨before, after, rfl, hbefore, hlib⟩ :=
    Disk.exists_names_before hup' ((hdrop ▸ hinner).trans (List.dropLast_prefix _))
  obtain ⟨hrooted, hpieces⟩ := pieces_of_mem_ancestors haround
  obtain ⟨names, hnames, haim⟩ := Disk.exists_names_aim hup' hrooted hpieces
  obtain ⟨init, last, rfl⟩ : ∃ init last, after = init ++ [last] := by
    rcases List.eq_nil_or_concat after with rfl | ⟨init, last, rfl⟩
    · exact absurd rfl hne
    · exact ⟨init, last, List.concat_eq_append ..⟩
  -- the new directory is among the sources, and the directories around the header are not
  obtain rfl : names = before ++ sourceDirectory :: init := by
    rw [haim c, List.foldl_append, hlib c, ← List.map_cons, foldl_follow_names, List.append_assoc,
      List.append_assoc, List.append_cancel_left_eq, ← List.cons_append, ← List.append_assoc] at hplace
    exact (List.append_inj' hplace rfl).1
  have hsides : sourceDirectory ≠ includeDirectory := by decide
  rw [List.map_append, List.map_cons] at hnames hbefore
  rcases List.prefix_or_prefix_of_prefix hnames hbefore with hpre | hpre
  · have hcons := (List.cons_prefix_cons.1 ((List.prefix_append_right_inj _).1 hpre)).1
    exact hsides (Component.name.inj hcons)
  · have hcons := (List.cons_prefix_cons.1 ((List.prefix_append_right_inj _).1 hpre)).1
    exact hsides (Component.name.inj hcons).symm

end IsHeaderOf

end Layout

end TypeGen.Project
