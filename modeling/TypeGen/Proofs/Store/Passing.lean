import TypeGen.Proofs.Store.Aiming
import TypeGen.Proofs.Store.Saving

/-!
What paths pass by. A path comes by the places that its components spell out one after another. As
long as they are directories, only the last of them decides what is found; and where a file is saved,
directories are made at no other places.
-/

namespace TypeGen.Store

open FilePath

/-! ### Ways -/

namespace FileTree

/-- All that is come by on a way is a directory. -/
theorem Reaches.get?_on_way {t : FileTree} {here dir : Place} {cs : List Component}
    (h : t.Reaches here cs dir) (hd : t.get? here = some .directory) {cs' : List Component}
    (hp : cs' <+: cs) : t.get? (cs'.foldl Component.follow here) = some .directory := by
  induction h generalizing cs' with
  | here => rw [List.prefix_nil.1 hp]; exact hd
  | name _ hn _ ih =>
    rcases List.prefix_cons_iff.1 hp with rfl | ⟨rest, rfl, hrest⟩
    · exact hd
    · exact ih hn hrest
  | parent _ ih =>
    rcases List.prefix_cons_iff.1 hp with rfl | ⟨rest, rfl, hrest⟩
    · exact hd
    · exact ih (get?_dropLast_of_directory hd) hrest

/-- A way can be gone in any tree where all that it comes by is a directory. -/
theorem Reaches.of_prefixes {t u : FileTree} {here dir : Place} {cs : List Component}
    (h : t.Reaches here cs dir) (hu : ∀ cs', cs' <+: cs →
      u.get? (cs'.foldl Component.follow here) = some .directory) : u.Reaches here cs dir := by
  induction h with
  | here => exact .here
  | @name place _ n _ hn _ _ ih =>
    exact .name hn (hu [.name n] ⟨_, rfl⟩)
      (ih fun cs' hp => hu (.name n :: cs') (List.cons_prefix_cons.2 ⟨rfl, hp⟩))
  | parent _ ih =>
    exact .parent (ih fun cs' hp => hu (.parent :: cs') (List.cons_prefix_cons.2 ⟨rfl, hp⟩))

end FileTree

/-- A place for an entry is the one that the pieces up to it spell out. -/
theorem foldl_of_trail_vacant {t : FileTree} {through slashed : Bool} {place : Place} :
    ∀ {here : Place} {ps : List String}, t.trail through here ps = .spot (.vacant place slashed) →
      (counted ps).foldl Component.follow here = place
  | here, [], h => by rw [FileTree.trail] at h; cases h
  | here, piece :: rest, h => by
    rw [FileTree.trail] at h
    rcases componentOf?_cases piece with ⟨n, hc⟩ | hc | hc
    · simp only [hc] at h
      rw [counted_cons_some hc, List.foldl_cons]
      split at h
      · split at h
        · exact foldl_of_trail_vacant h
        · split at h <;> cases h
        · split at h <;> cases h
        · split at h
          next hidle =>
            -- nothing that follows the name counts
            cases h
            have hempty : ∀ s ∈ rest, isIdle s = true := fun s hs => by
              have := List.all_eq_true.1 hidle s hs
              simp_all [isIdle]
            rw [counted_of_idle hempty]; rfl
          next => cases h
      · cases h
    · simp only [hc] at h
      rw [counted_cons_some hc, List.foldl_cons]
      exact foldl_of_trail_vacant h
    · simp only [hc] at h
      rw [counted_cons_none hc]
      exact foldl_of_trail_vacant h

/-- A way depends on what it comes by. -/
theorem FileTree.trail_congr {t u : FileTree} {through : Bool} : ∀ {here : Place} {ps : List String},
    (∀ cs, cs <+: counted ps →
      u.get? (cs.foldl Component.follow here) = t.get? (cs.foldl Component.follow here)) →
    u.trail through here ps = t.trail through here ps
  | here, [], _ => rfl
  | here, piece :: rest, h => by
    rw [trail, trail]
    rcases componentOf?_cases piece with ⟨n, hc⟩ | hc | hc
    · rw [counted_cons_some hc] at h
      have hname : u.get? (here ++ [n]) = t.get? (here ++ [n]) :=
        h [.name n] (List.cons_prefix_cons.2 ⟨rfl, List.nil_prefix⟩)
      have hrest : u.trail through (here ++ [n]) rest = t.trail through (here ++ [n]) rest :=
        trail_congr fun cs hp => h (.name n :: cs) (List.cons_prefix_cons.2 ⟨rfl, hp⟩)
      simp only [hc, hname, hrest]
    · rw [counted_cons_some hc] at h
      simp only [hc]
      exact trail_congr fun cs hp => h (.parent :: cs) (List.cons_prefix_cons.2 ⟨rfl, hp⟩)
    · rw [counted_cons_none hc] at h
      simp only [hc]
      exact trail_congr h

namespace Disk

variable {d e : Disk} {p : FilePath}

/-- Components come by directories alone. -/
def Passes (d : Disk) (cs : List Component) : Prop :=
  ∀ cs', cs' <+: cs → d.tree.get? (cs'.foldl Component.follow d.home) = some .directory

theorem Passes.mono {cs cs' : List Component} (h : d.Passes cs) (hp : cs' <+: cs) :
    d.Passes cs' := fun _ hc => h _ (hc.trans hp)

theorem Passes.grows {cs : List Component} (h : d.Passes cs) (hhome : e.home = d.home)
    (hg : d.tree.Grows e.tree) : e.Passes cs := fun cs' hc => by rw [hhome]; exact hg _ (h cs' hc)

/-- A way may be gone on from where it leads. -/
theorem Passes.append {cs cs' : List Component} (h : d.Passes cs) (h' : ∀ rest, rest <+: cs' →
    d.tree.get? (rest.foldl Component.follow (cs.foldl Component.follow d.home)) =
      some .directory) : d.Passes (cs ++ cs') := fun ks hp => by
  rcases List.prefix_or_prefix_of_prefix hp (List.prefix_append cs cs') with hq | ⟨rest, rfl⟩
  · exact h ks hq
  · rw [List.foldl_append]
    exact h' rest ((List.prefix_append_right_inj _).1 hp)

theorem Passes.concat {cs : List Component} {c : Component} (h : d.Passes cs)
    (hc : d.tree.get? ((cs ++ [c]).foldl Component.follow d.home) = some .directory) :
    d.Passes (cs ++ [c]) := fun cs' hp => by
  rcases List.prefix_concat_iff.1 hp with rfl | hp
  · exact hc
  · exact h cs' hp

theorem passes_nil (d : Disk) : d.Passes [] := fun cs' hp => by
  rw [List.prefix_nil.1 hp]; exact d.home_isDirectory

theorem foldl_head? (d : Disk) (p : FilePath) :
    p.head?.toList.foldl Component.follow d.home = d.startOf p := by
  rw [head?, startOf]
  cases hr : p.rooted with
  | true => rfl
  | false =>
    simp only [Bool.false_eq_true, if_false]
    split <;> rfl

/-- What a path comes by is where it starts, and then what its pieces lead to. -/
theorem passes_iff {cs : List Component} : d.Passes (p.head?.toList ++ cs) ↔
    ∀ cs', cs' <+: cs → d.tree.get? (cs'.foldl Component.follow (d.startOf p)) = some .directory := by
  constructor
  · intro h cs' hp
    have := h (p.head?.toList ++ cs') ((List.prefix_append_right_inj _).2 hp)
    rwa [List.foldl_append, foldl_head?] at this
  · intro h
    have hhead : d.Passes p.head?.toList := by
      cases hh : p.head? with
      | none => exact d.passes_nil
      | some c =>
        refine d.passes_nil.append fun rest hp => ?_
        rcases List.prefix_cons_iff.1 hp with rfl | ⟨rest, rfl, hrest⟩
        · exact d.home_isDirectory
        · have hstart := d.foldl_head? p
          rw [hh] at hstart
          rw [List.prefix_nil.1 hrest, List.foldl_nil, ← Option.toList_some, hstart]
          exact d.get?_startOf p
    refine hhead.append fun rest hp => ?_
    rw [foldl_head?]
    exact h rest hp

theorem aim_eq (d : Disk) (p : FilePath) :
    p.aim d.home = (counted p.pieces).foldl Component.follow (d.startOf p) := by
  rw [aim, components_eq, List.foldl_append, foldl_head?]

/-! ### Paths without ways back -/

section

variable {p q : FilePath}

/-- What comes before a name in a path leads on by names from where the path starts. -/
theorem exists_names_before (h : .parent ∉ p.components) {cs rest : List Component} {n : String}
    (hp : cs ++ .name n :: rest <+: p.components) : ∃ before after : List String,
      rest = after.map .name ∧ (before ++ n :: after).map .name <+: counted p.pieces ∧
        ∀ d : Disk, cs.foldl Component.follow d.home = d.startOf p ++ before := by
  obtain ⟨tail, rfl, htail⟩ : ∃ tail, cs = p.head?.toList ++ tail ∧
      tail ++ .name n :: rest <+: counted p.pieces := by
    rw [components_eq] at hp
    cases hh : p.head? with
    | none => exact ⟨cs, rfl, by simpa [hh] using hp⟩
    | some c =>
      rw [hh] at hp
      cases cs with
      | nil =>
        have hmem : .name n ∈ p.head?.toList := by
          rw [hh, (List.cons_prefix_cons.1 hp).1]
          exact List.mem_singleton_self _
        rcases mem_head? hmem with ⟨h0, -⟩ | ⟨h0, -⟩ <;> cases h0
      | cons c' tail =>
        obtain ⟨rfl, htail⟩ := List.cons_prefix_cons.1 hp
        exact ⟨tail, rfl, htail⟩
  obtain ⟨names, hnames⟩ := exists_names_of_counted fun h0 => h (List.mem_append_right _ h0)
  rw [hnames] at htail ⊢
  obtain ⟨as, has, heq⟩ := List.prefix_map_iff.1 htail
  obtain ⟨before, bs, rfl, rfl, hbs⟩ := List.map_eq_append_iff.1 heq.symm
  obtain ⟨_, after, rfl, hn, rfl⟩ := List.map_eq_cons_iff.1 hbs
  cases hn
  refine ⟨before, after, rfl, has.map _, fun d => ?_⟩
  rw [List.foldl_append, foldl_head?, foldl_follow_names]

/-- A part of such a path is at the place that its names spell out. -/
theorem exists_names_aim (h : .parent ∉ p.components) (hr : q.rooted = p.rooted)
    (hq : q.pieces <+: p.pieces) : ∃ names : List String, names.map .name <+: counted p.pieces ∧
      ∀ d : Disk, q.aim d.home = d.startOf p ++ names := by
  have hcounted : counted q.pieces <+: counted p.pieces := hq.filterMap _
  obtain ⟨names, hnames⟩ := exists_names_of_counted fun h0 =>
    h (List.mem_append_right _ (hcounted.subset h0))
  refine ⟨names, hnames ▸ hcounted, fun d => ?_⟩
  rw [aim_eq, hnames, foldl_follow_names, startOf, startOf, hr]

end

/-! ### Directories -/

theorem passes_of_isDirectory (hl : d.tree.NoLinks) (h : d.isDirectory p = true) :
    d.Passes p.components := by
  obtain ⟨dir, hloc⟩ := isDirectory_iff.1 h
  obtain ⟨-, -, hway⟩ := (locate_eq_directory hl true).1 hloc
  rw [components_eq]
  exact passes_iff.2 fun cs' hp => hway.get?_on_way (d.get?_startOf p) hp

/-- A path to a directory leads to one wherever it comes by directories alone. -/
theorem isDirectory_of_passes (hl : d.tree.NoLinks) (he : e.tree.NoLinks) (hhome : e.home = d.home)
    (h : d.isDirectory p = true) (hp : e.Passes p.components) : e.isDirectory p = true := by
  obtain ⟨dir, hloc⟩ := isDirectory_iff.1 h
  obtain ⟨hpath, hne, hway⟩ := (locate_eq_directory hl true).1 hloc
  have hstart := startOf_congr hhome p
  rw [components_eq] at hp
  have hway' := hway.of_prefixes (hstart ▸ passes_iff.1 hp)
  exact isDirectory_iff.2 ⟨dir, (locate_eq_directory he true).2 ⟨hpath, hne, hstart ▸ hway'⟩⟩

/-! ### Files -/

theorem locate_eq_file (hl : d.tree.NoLinks) (through : Bool) {place : Place} {c : Content} :
    d.locate through p = .found place (.file c) ↔
      d.filePlace? p = some place ∧ d.tree.get? place = some (.file c) := by
  constructor
  · intro hloc
    obtain ⟨hpath, htrail⟩ := trail_of_locate hl hloc (by simp) (by simp)
    have hends : EndsInName p.pieces := by simpa [hloc, Spot.Ends] using locate_ends d through p
    have hagrees := d.locate_agrees through p
    rw [hloc] at hagrees
    exact ⟨(filePlace?_eq_some hl).2 ⟨hpath, hends, leadsToFile_of_trail rfl htrail⟩, hagrees⟩
  · rintro ⟨hplace, hget⟩
    obtain ⟨hpath, hends, hway⟩ := (filePlace?_eq_some hl).1 hplace
    obtain ⟨s, htrail, hs⟩ := exists_trail_of_leadsToFile hl through hends hway
    have hloc := locate_of_trail (.inl hends.ne_nil) hpath htrail
    have hagrees := d.locate_agrees through p
    rw [hloc] at hagrees ⊢
    rcases Spot.filePlace?_eq_some.1 hs with ⟨c', rfl⟩ | rfl
    · rw [Option.some.inj (hget.symm.trans hagrees)]
    · have hnone : d.tree.get? place = none := hagrees.1
      rw [hget] at hnone; cases hnone

theorem passes_of_filePlace? (hl : d.tree.NoLinks) {place : Place}
    (h : d.filePlace? p = some place) : d.Passes p.components.dropLast := by
  obtain ⟨-, hends, hway⟩ := (filePlace?_eq_some hl).1 h
  obtain ⟨init, n, hcounted⟩ := hends.exists_counted
  rw [hcounted] at hway
  rw [components_eq, hcounted, ← List.append_assoc, List.dropLast_concat]
  exact passes_iff.2 fun cs' hp => hway.reaches.1.get?_on_way (d.get?_startOf p) hp

/-- Where a path comes by directories alone, what it leads to is decided by what is at its end. -/
theorem locate_of_passes (hd : d.tree.NoLinks) (hhome : e.home = d.home)
    (hp : d.Passes p.components.dropLast) (hp' : e.Passes p.components.dropLast)
    (hget : e.tree.get? (p.aim d.home) = d.tree.get? (p.aim d.home)) (through : Bool) :
    e.locate through p = d.locate through p := by
  have hway : ∀ cs, cs <+: p.components → e.tree.get? (cs.foldl Component.follow d.home) =
      d.tree.get? (cs.foldl Component.follow d.home) := fun cs hcs => by
    by_cases hall : cs = p.components
    · rw [hall]; exact hget
    · have hinit : cs <+: p.components.dropLast := by
        have hlen := hcs.length_le
        have hne : cs.length ≠ p.components.length := fun h => hall (hcs.eq_of_length h)
        exact List.prefix_of_prefix_length_le hcs (List.dropLast_prefix _)
          (by rw [List.length_dropLast]; omega)
      rw [hp cs hinit, ← hhome]
      exact hp' cs hinit
  have hstart := startOf_congr hhome p
  have htrail : e.tree.trail through (d.startOf p) p.pieces =
      d.tree.trail through (d.startOf p) p.pieces := by
    refine FileTree.trail_congr fun cs hcs => ?_
    have := hway (p.head?.toList ++ cs)
      (components_eq p ▸ (List.prefix_append_right_inj _).2 hcs)
    rwa [List.foldl_append, foldl_head?] at this
  obtain ⟨s, hs⟩ := exists_trail_eq_spot hd through (d.startOf p) p.pieces
  rw [locate, locate]
  change (if _ then _ else if _ then _ else e.tree.resolve through linkLimit (e.startOf p) p.pieces) =
    if _ then _ else if _ then _ else d.tree.resolve through linkLimit (d.startOf p) p.pieces
  rw [hstart, resolve_of_trail hs, resolve_of_trail (htrail.trans hs)]

theorem read_of_passes (hd : d.tree.NoLinks) (hhome : e.home = d.home)
    (hp : d.Passes p.components.dropLast) (hp' : e.Passes p.components.dropLast)
    (hget : e.tree.get? (p.aim d.home) = d.tree.get? (p.aim d.home)) : e.read p = d.read p := by
  rw [read, read, locate_of_passes hd hhome hp hp' hget]

/-! ### New directories -/

theorem aim_of_vacant (hl : d.tree.NoLinks) {through slashed : Bool} {place : Place}
    (h : d.locate through p = .vacant place slashed) : p.aim d.home = place := by
  obtain ⟨-, htrail⟩ := trail_of_locate hl h (by simp) (by simp)
  rw [aim_eq]
  exact foldl_of_trail_vacant htrail

theorem get?_makeDirectory (hl : d.tree.NoLinks) (h : d.makeDirectory p = .ok e) (q : Place) :
    e.tree.get? q = d.tree.get? q ∨ q = p.aim d.home := by
  rw [makeDirectory] at h
  split at h
  next place slashed hloc =>
    split at h
    next hput =>
      cases h
      obtain ⟨-, ht⟩ := put?_eq_some hput
      rw [FileTree.get?_of_put? ht, aim_of_vacant hl hloc]
      split
      next hq => exact .inr hq
      next => exact .inl rfl
    next => cases h
  next => cases h
  next => cases h

theorem get?_makeChain : ∀ {ps : List FilePath} {d : Disk}, d.tree.NoLinks → ∀ q,
    (d.makeChain ps).1.tree.get? q = d.tree.get? q ∨ ∃ p ∈ ps, q = p.aim d.home
  | [], _, _, _ => .inl rfl
  | p :: above, d, hl, q => by
    have hself : ∀ {e f : Disk}, e.tree.NoLinks → e.home = d.home → e.makeDirectory p = .ok f →
        f.tree.get? q = e.tree.get? q ∨ ∃ a ∈ p :: above, q = a.aim d.home := fun he hhome hok =>
      (get?_makeDirectory he hok q).imp_right fun hq => ⟨p, List.mem_cons_self .., hhome ▸ hq⟩
    have habove : (d.makeChain above).1.tree.get? q = d.tree.get? q ∨
        ∃ a ∈ p :: above, q = a.aim d.home := (get?_makeChain hl q).imp_right fun ⟨a, ha, hq⟩ =>
      ⟨a, List.mem_cons_of_mem _ ha, hq⟩
    have hadds := onlyAdds_makeChain above d
    rw [makeChain]
    split
    · exact .inl rfl
    · split
      next hok => exact hself hl rfl hok
      next => exact .inl rfl
      next =>
        split
        next hchain => rw [hchain] at habove; exact habove
        next f hchain =>
          rw [hchain] at habove hadds
          split
          next hok =>
            rcases hself (hadds.noLinks hl) hadds.home hok with hq | hq
            · rw [hq]; exact habove
            · exact .inr hq
          next => exact habove

theorem get?_makeDirectories (hl : d.tree.NoLinks) (p : FilePath) (q : Place) :
    (d.makeDirectories p).1.tree.get? q = d.tree.get? q ∨
      ∃ cs, cs <+: p.components ∧ q = cs.foldl Component.follow d.home := by
  refine (get?_makeChain hl q).imp_right fun ⟨a, ha, hq⟩ => ⟨a.components, ?_, hq⟩
  exact prefix_of_mem_go _ p ha

end Disk

end TypeGen.Store

namespace TypeGen.Project

open TypeGen.Store TypeGen.Store.FilePath

/-- What saving changes: the file is where its path aims, and directories are on the way there. -/
theorem get?_save {d d' : Disk} (hl : d.tree.NoLinks) {p : FilePath} {text : String}
    (h : save d p text = (d', .ok ())) (q : Place) : d'.tree.get? q = d.tree.get? q ∨
      q = p.aim d.home ∧ d'.tree.get? q = some (.file (.text text)) ∨
      d'.tree.get? q = some .directory ∧
        ∃ cs, cs <+: p.components.dropLast ∧ q = cs.foldl Component.follow d.home := by
  have hinto : ∀ {e : Disk}, e.tree.NoLinks → saveInto e p text = (d', .ok ()) →
      d'.tree.get? q = e.tree.get? q ∨
        q = p.aim e.home ∧ d'.tree.get? q = some (.file (.text text)) := fun {e} he hs => by
    rw [saveInto] at hs
    split at hs
    next hw =>
      cases hs
      obtain ⟨place, hplace, hput⟩ := write?_eq_some hw
      obtain ⟨-, ht⟩ := Disk.put?_eq_some hput
      rw [FileTree.get?_of_put? ht, aim_of_filePlace? he hplace]
      split
      next hq => exact .inr ⟨hq, rfl⟩
      next => exact .inl rfl
    next => cases hs
  rw [save] at h
  split at h
  · exact (hinto hl h).imp_right .inl
  next parent hparent =>
    have hadds := d.onlyAdds_makeDirectories parent
    have hmade := d.get?_makeDirectories hl parent q
    split at h
    next e hmake =>
      rw [hmake] at hadds hmade
      rcases hinto (hadds.noLinks hl) h with hq | hq
      · rw [hq]
        rcases hadds.get? q with hsame | ⟨hnone, hdir⟩
        · exact .inl hsame
        · rcases hmade with hsame | ⟨cs, hcs, hq⟩
          · exact .inl hsame
          · rw [components_of_parent? hparent] at hcs
            exact .inr (.inr ⟨hdir, cs, hcs, hq⟩)
      · rw [hadds.home] at hq; exact .inr (.inl hq)
    next => cases h

/-- Where a file has been saved, all that its path comes by is a directory, and it aims at the file. -/
theorem passes_of_save {d d' : Disk} (hl : d.tree.NoLinks) {p : FilePath} {text : String}
    (h : save d p text = (d', .ok ())) : d'.home = d.home ∧ d'.tree.NoLinks ∧
      d'.Passes p.components.dropLast ∧
      d'.tree.get? (p.aim d.home) = some (.file (.text text)) := by
  obtain ⟨place, hplace, hsaved⟩ := saved_of_save hl h
  have hl' := hsaved.noLinks hl
  obtain rfl := aim_of_filePlace? hl' hplace
  exact ⟨hsaved.home, hl', Disk.passes_of_filePlace? hl' hplace, hsaved.home ▸ hsaved.here⟩

/-- A file stays as it is unless a text is saved to where it is. -/
theorem get?_file_of_save_ne {d d' : Disk} (hl : d.tree.NoLinks) {p : FilePath} {text : String}
    (h : save d p text = (d', .ok ())) {place : Place} {c : Content}
    (hc : d.tree.get? place = some (.file c)) (hne : place ≠ p.aim d.home) :
    d'.tree.get? place = some (.file c) := by
  obtain ⟨place', hplace, hsaved⟩ := saved_of_save hl h
  refine hsaved.get?_of_ne (fun h0 => hne ?_) hc
  rw [h0, ← hsaved.home, aim_of_filePlace? (hsaved.noLinks hl) hplace]

/-- Away from the file, saving has one effect whatever the text and however the path is written. -/
theorem get?_save_congr {d d' e e' : Disk} (hd : d.tree.NoLinks) (he : e.tree.NoLinks)
    (hhome : e.home = d.home) {p q : FilePath} (hpq : p.components = q.components)
    {text text' : String} (h : save d p text = (d', .ok ())) (h' : save e q text' = (e', .ok ()))
    {place : Place} (hplace : place ≠ p.aim d.home) (hsame : e.tree.get? place = d.tree.get? place) :
    e'.tree.get? place = d'.tree.get? place := by
  obtain ⟨hhome₁, -, hpass, -⟩ := passes_of_save hd h
  obtain ⟨hhome₂, -, hpass', -⟩ := passes_of_save he h'
  by_cases hway : ∃ cs, cs <+: p.components.dropLast ∧ place = cs.foldl Component.follow d.home
  · obtain ⟨cs, hcs, rfl⟩ := hway
    have hleft := hpass cs hcs
    have hright := hpass' cs (hpq ▸ hcs)
    rw [hhome₁] at hleft
    rw [hhome₂, hhome] at hright
    rw [hleft, hright]
  · have hleft : d'.tree.get? place = d.tree.get? place := by
      rcases get?_save hd h place with hs | ⟨hs, -⟩ | ⟨-, hs⟩
      · exact hs
      · exact absurd hs hplace
      · exact absurd hs hway
    have hright : e'.tree.get? place = e.tree.get? place := by
      rcases get?_save he h' place with hs | ⟨hs, -⟩ | ⟨-, hs⟩
      · exact hs
      · rw [hhome, aim, ← hpq] at hs; exact absurd hs hplace
      · rw [hhome, ← hpq] at hs; exact absurd hs hway
    rw [hleft, hright, hsame]

end TypeGen.Project
