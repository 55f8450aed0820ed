import TypeGen.Command.Run
import TypeGen.Proofs.Generate.Sample
import TypeGen.Proofs.Layout.Libraries
import TypeGen.Proofs.Layout.Outputs
import TypeGen.Proofs.Layout.Settling
import TypeGen.Proofs.Store.Visiting

/-!
Clearing away outdated files. Whether a file is outdated is decided by the directories that there are
and by files that are named like specs. Neither changes when files that are not named so are removed,
so what is not outdated before is not outdated after, whatever has been removed in between.
-/

namespace TypeGen.Store.Disk

open FilePath

/-- A disk from which files have been taken away, at some places, and nothing else has changed. -/
structure Without (d e : Disk) (places : List Place) : Prop where
  home : e.home = d.home
  get? : ∀ q, e.tree.get? q = if q ∈ places then none else d.tree.get? q
  isFile : ∀ q ∈ places, ∃ c, d.tree.get? q = some (.file c)

namespace Without

variable {d e f : Disk} {ps qs : List Place}

theorem refl (d : Disk) : d.Without d [] := ⟨rfl, fun _ => by simp, fun _ h => by cases h⟩

theorem trans (h : d.Without e ps) (h' : e.Without f qs) : d.Without f (ps ++ qs) where
  home := h'.home.trans h.home
  get? q := by
    rw [h'.get?, h.get?]
    by_cases hp : q ∈ ps <;> simp [hp]
  isFile q hq := by
    rcases List.mem_append.1 hq with hq | hq
    · exact h.isFile q hq
    · obtain ⟨c, hc⟩ := h'.isFile q hq
      rw [h.get?] at hc
      split at hc
      · cases hc
      · exact ⟨c, hc⟩

theorem get?_of_ne (h : d.Without e ps) {q : Place} (hq : q ∉ ps) :
    e.tree.get? q = d.tree.get? q := by rw [h.get?, if_neg hq]

/-- What is left was there before. -/
theorem get?_of_some (h : d.Without e ps) {q : Place} {entry : Entry}
    (hq : e.tree.get? q = some entry) : d.tree.get? q = some entry := by
  rw [h.get?] at hq
  split at hq
  · cases hq
  · exact hq

theorem noLinks (h : d.Without e ps) (hl : d.tree.NoLinks) : e.tree.NoLinks :=
  fun q target hq => hl q target (h.get?_of_some hq)

/-- Directories are no files, so all of them stay. -/
theorem grows (h : d.Without e ps) : d.tree.Grows e.tree := fun q hq => by
  rw [h.get?_of_ne, hq]
  intro hmem
  obtain ⟨c, hc⟩ := h.isFile q hmem
  rw [hq] at hc; cases hc

theorem keeps (h : d.Without e ps) : e.Keeps d where
  home := h.home.symm
  grows _ := h.get?_of_some
  isFile _ c hc := ⟨c, h.get?_of_some hc⟩

/-- A file that is at none of the places is found as before. -/
theorem isFile_of_aim_notMem (h : d.Without e ps) (hl : d.tree.NoLinks) {p : FilePath}
    (hp : p.aim d.home ∉ ps) (hfile : d.isFile p = true) : e.isFile p = true := by
  obtain ⟨place, c, hplace, hget⟩ := isFile_eq_true.1 hfile
  rw [aim_of_filePlace? hl hplace] at hp
  have hget' : e.tree.get? place = some (.file c) := (h.get?_of_ne hp).trans hget
  have hplace' := filePlace?_grows hl (h.noLinks hl) h.home h.grows hplace (by rw [hget']; simp)
  exact isFile_eq_true.2 ⟨place, c, hplace', hget'⟩

end Without

variable {d e : Disk} {p : FilePath}

/-- Removing takes away the file that the path aims at. -/
theorem without_remove? (hl : d.tree.NoLinks) (h : d.remove? p = some e) :
    d.Without e [p.aim d.home] := by
  have hagrees := d.locate_agrees false p
  rw [remove?] at h
  split at h
  next place entry hloc =>
    rw [hloc] at hagrees
    have hentry : d.tree.get? place = some entry := hagrees
    split at h
    next t ht =>
      cases h
      have hget := FileTree.get?_of_remove? ht
      obtain ⟨c, rfl⟩ : ∃ c, entry = .file c := by
        cases entry with
        | file c => exact ⟨c, rfl⟩
        | link target => exact absurd hentry (hl place target)
        | directory => rw [FileTree.remove?, dif_neg (by simp [hentry])] at ht; cases ht
      rw [aim_of_filePlace? hl ((locate_eq_file hl false).1 hloc).1]
      refine ⟨rfl, fun q => by simpa using hget q, fun q hq => ⟨c, ?_⟩⟩
      rw [List.mem_singleton.1 hq, hentry]
    next => cases h
  next => cases h

end TypeGen.Store.Disk

namespace TypeGen.Project

open TypeGen.Command TypeGen.Spec TypeGen.Store TypeGen.Store.FilePath

variable {l : Layout} {d e : Disk}

/-- Files that are removed one after the other are gone, and nothing else is. -/
theorem without_eraseAll : ∀ {ps : List FilePath} {d : Disk}, d.tree.NoLinks →
    eraseAll d ps = (e, .ok ()) → d.Without e (ps.map (aim d.home))
  | [], d, _, h => by
    rw [eraseAll] at h; cases h; exact .refl e
  | p :: ps, d, hl, h => by
    rw [eraseAll] at h
    split at h
    next f hf =>
      rw [erase] at hf
      split at hf
      next hremove =>
        cases hf
        have hfirst := Disk.without_remove? hl hremove
        have hrest := without_eraseAll (hfirst.noLinks hl) h
        rw [hfirst.home] at hrest
        exact hfirst.trans hrest
      next => cases hf
    next => cases h

namespace Layout

theorem possibleSpecs_congr {p : FilePath} (h : l.library? d p = l.library? e p) :
    l.possibleSpecs d p = l.possibleSpecs e p := by
  rw [possibleSpecs, possibleSpecs, inLibrary?_congr h]

theorem kindOf?_of_mem_possibleSpecs {p s : FilePath} {name : String} (hn : p.fileName? = some name)
    (hw : '/' ∉ name.toList) (hs : s ∈ l.possibleSpecs d p) : ∃ k, kindOf? s = some k := by
  cases hstem : l.generatedStem? p with
  | none => rw [possibleSpecs, hstem] at hs; cases hs
  | some stem =>
    rw [possibleSpecs_eq hstem] at hs
    obtain ⟨dir, -, hs⟩ := List.mem_flatMap.1 hs
    obtain ⟨k, -, rfl⟩ := List.mem_map.1 hs
    have hplain := isPlain_spec (noSlash_of_generatedStem? hstem hn hw) k
    refine ⟨k, kindOf?_eq_some.2 ⟨stem, (of_generatedStem? hstem).1, ?_⟩⟩
    rw [fileName?_eq_some, components_child hplain, List.getLast?_concat]

/-- What is not outdated stays so when files that are no specs are taken away. -/
theorem isOutdated_of_without {places : List Place} (h : d.Without e places) (hl : d.tree.NoLinks)
    (hspec : ∀ s k, kindOf? s = some k → s.aim d.home ∉ places) {p : FilePath} {name : String}
    (hn : p.fileName? = some name) (hw : '/' ∉ name.toList) (hp : l.isOutdated d p = false) :
    l.isOutdated e p = false := by
  have hlib : l.library? d p = l.library? e p :=
    library?_of_same hl (h.noLinks hl) h.home h.grows h.keeps.grows
  rw [isOutdated, Bool.not_eq_false', List.any_eq_true] at hp ⊢
  obtain ⟨s, hs, hfile⟩ := hp
  obtain ⟨k, hk⟩ := kindOf?_of_mem_possibleSpecs hn hw hs
  exact ⟨s, possibleSpecs_congr hlib ▸ hs, h.isFile_of_aim_notMem hl (hspec s k hk) hfile⟩

/-- Where no spec is outdated, taking away all that is leaves nothing outdated. -/
theorem outdated_of_without (h : d.Without e ((l.outdated d).map (aim d.home)))
    (hl : d.tree.NoLinks) (ht : d.tree.HasPlainNames) (hroot : l.root.IsWritten)
    (hspec : ∀ p ∈ l.outdated d, kindOf? p = none) : l.outdated e = [] := by
  have hl' := h.noLinks hl
  have ht' : e.tree.HasPlainNames := fun place entry he => ht place entry (h.get?_of_some he)
  refine List.filter_eq_nil_iff.2 fun p hp => ?_
  obtain ⟨hfiles, hgen⟩ := List.mem_filter.1 hp
  have hmem : p ∈ l.generatedFiles d :=
    List.mem_filter.2 ⟨h.keeps.files_subset hl' hl hfiles, hgen⟩
  obtain ⟨stem, hstem⟩ := Option.isSome_iff_exists.1 hgen
  obtain ⟨-, name, hn, -⟩ := of_generatedStem? hstem
  have hw : '/' ∉ name.toList :=
    (Disk.mem_files ht' hroot hfiles).1 name (mem_pieces_of_fileName? hn).1
  have hold : l.isOutdated d p = false := by
    -- the file is there, so it is not among those that have been taken away
    obtain ⟨-, c, hc⟩ := Disk.passes_of_mem_files hl' ht' hfiles
    by_contra hout
    have haim : p.aim d.home ∈ (l.outdated d).map (aim d.home) :=
      List.mem_map_of_mem (List.mem_filter.2 ⟨hmem, by simpa using hout⟩)
    rw [h.home, h.get?, if_pos haim] at hc
    cases hc
  rw [isOutdated_of_without h hl (fun s k hk hplace => ?_) hn hw hold]
  · simp
  · obtain ⟨p', hp', haim⟩ := List.mem_map.1 hplace
    obtain ⟨stem', hstem'⟩ := Option.isSome_iff_exists.1
      (List.mem_filter.1 (List.mem_filter.1 hp').1).2
    obtain ⟨-, name', hn', -⟩ := of_generatedStem? hstem'
    exact aim_ne_of_kindOf? hk (hspec p' hp') hn' d.home haim.symm

end Layout

/-- When the outdated files of a project are deleted, and none of them is named like a spec, they are
gone and everything else is as it was; nothing that is named like a spec, or otherwise than a
generated file, is touched; and no file is outdated any more. -/
theorem outdated_of_runOutdated {reply : Reply} (hl : d.tree.NoLinks) (ht : d.tree.HasPlainNames)
    (hroot : l.root.IsWritten) (hspec : ∀ p ∈ l.outdated d, kindOf? p = none)
    (h : runOutdated d l true = (e, reply)) (hok : reply.code = 0) :
    reply.output = textOfLines (outdatedLines l true (l.outdated d)) ∧
    d.Without e ((l.outdated d).map (aim d.home)) ∧
    (∀ q name, q.fileName? = some name → (kindOf? q).isSome = true ∨ l.isGenerated q = false →
      e.tree.get? (q.aim d.home) = d.tree.get? (q.aim d.home)) ∧
    l.outdated e = [] := by
  obtain ⟨hoff, houtput⟩ : eraseAll d (l.outdated d) = (e, .ok ()) ∧
      reply.output = textOfLines (outdatedLines l true (l.outdated d)) := by
    rw [runOutdated, if_pos rfl] at h
    split at h
    next herase => cases h; exact ⟨herase, rfl⟩
    next => cases h; cases hok
  have hwithout := without_eraseAll hl hoff
  refine ⟨houtput, hwithout, fun q name hn hq => hwithout.get?_of_ne fun hmem => ?_,
    Layout.outdated_of_without hwithout hl ht hroot hspec⟩
  obtain ⟨p, hp, haim⟩ := List.mem_map.1 hmem
  have hgen : l.isGenerated p = true := (List.mem_filter.1 (List.mem_filter.1 hp).1).2
  obtain ⟨stem, hstem⟩ := Option.isSome_iff_exists.1 hgen
  obtain ⟨-, name', hn', -⟩ := Layout.of_generatedStem? hstem
  have hname : name' = name := by
    by_contra hne
    exact aim_ne_of_fileName? hn' hn hne haim
  subst hname
  rcases hq with hq | hq
  · rw [kindOf?, hn, ← hn', ← kindOf?, hspec p hp] at hq
    cases hq
  · rw [Layout.isGenerated, Layout.generatedStem?, hn, ← hn', ← Layout.generatedStem?, hstem] at hq
    cases hq

/-- A library with a spec of which one file is left, and both files of a spec that is gone. -/
def orphans : Disk := furnish ["r/lib/include/x", "r/lib/src/x"]
  [("r/lib/src/x/foo.struct.toml", emptyStruct), ("r/lib/include/x/foo.dtg.h", "h"),
    ("r/lib/include/x/bar.dtg.h", "h"), ("r/lib/src/x/bar.dtg.cc", "cc")]

theorem outdated_of_runOutdated_orphans :
    let gone := [ofString "r/lib/include/x/bar.dtg.h", ofString "r/lib/src/x/bar.dtg.cc"]
    ∃ e reply, runOutdated orphans sampleGenerator.layout true = (e, reply) ∧
      sampleGenerator.layout.outdated orphans = gone ∧
      orphans.Without e (gone.map (aim orphans.home)) ∧
      sampleGenerator.layout.outdated e = [] := by
  have hgone : sampleGenerator.layout.outdated orphans =
      [ofString "r/lib/include/x/bar.dtg.h", ofString "r/lib/src/x/bar.dtg.cc"] := by decide +kernel
  have hok : (runOutdated orphans sampleGenerator.layout true).2.code = 0 := by decide +kernel
  have hl : orphans.tree.NoLinks := noLinks_furnish _ _
  have ht : orphans.tree.HasPlainNames := hasPlainNames_furnish _ _
  cases hrun : runOutdated orphans sampleGenerator.layout true with
  | mk e reply =>
    rw [hrun] at hok
    obtain ⟨-, hwithout, -, hnone⟩ := outdated_of_runOutdated hl ht (isWritten_ofString _)
      (by rw [hgone]; decide) hrun hok
    exact ⟨e, reply, rfl, hgone, hgone ▸ hwithout, hnone⟩

end TypeGen.Project
