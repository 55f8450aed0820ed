import TypeGen.Proofs.Path.Respelling
import TypeGen.Proofs.Store.Passing

/-!
Disks and the spelling of paths. Spellings of one rooted path lead to the same spot on every disk, if
they can be followed at all, and so do the paths around them; so what is done by one of them is done
by the other as well.
-/

namespace TypeGen.Store

open FilePath

/-! ### Paths that lead to the same spot -/

/-- Spellings of one path that lead to the same spot on every disk. -/
structure FilePath.Alike (p q : FilePath) : Prop where
  respells : p.Respells q
  locate : ∀ (d : Disk) (through : Bool), d.locate through p = d.locate through q

theorem FilePath.Respells.alike {p q : FilePath} (h : p.Respells q) (hp : IsWay p.pieces)
    (hq : IsWay q.pieces) (hpath : isPath p = isPath q) : p.Alike q :=
  ⟨h, fun _ _ => locate_congr_of_isWay h hp hq hpath⟩

/-- Spellings of one absolute path that may be that of a file and can be followed. -/
structure FilePath.SameFile (p q : FilePath) : Prop where
  respells : p.Respells q
  rooted : p.rooted = true
  isPath : isPath p = true
  isPath' : Store.isPath q = true
  ends : EndsInName p.pieces
  ends' : EndsInName q.pieces

theorem FilePath.SameFile.alike {p q : FilePath} (h : p.SameFile q) : p.Alike q :=
  h.respells.alike (.inr h.ends.endsActive) (.inr h.ends'.endsActive) (h.isPath.trans h.isPath'.symm)

theorem isWay_of_parent? {p q : FilePath} (hr : p.rooted = true) (h : p.parent? = some q) :
    IsWay q.pieces := by
  rw [parent?] at h
  split at h
  · cases h
  · cases h
    rw [hr]
    change IsWay (⟨true, p.tidyEnd.dropLast⟩ : FilePath).tidyEnd
    rw [tidyEnd_of_ne_current (head?_ne_current rfl)]
    by_cases hnil : dropIdle p.tidyEnd.dropLast = []
    · exact .inl hnil
    · obtain ⟨init, last, heq, hlast⟩ := exists_of_dropIdle_ne_nil hnil
      exact .inr ⟨last, by rw [heq, List.getLast?_concat], hlast⟩

theorem isWay_of_mem_go : ∀ (n : Nat) (p : FilePath) {a : FilePath}, p.rooted = true →
    IsWay p.pieces → a ∈ ancestors.go n p → IsWay a.pieces
  | 0, p, a, _, hp, ha => by
    rw [ancestors.go, List.mem_singleton] at ha; rw [ha]; exact hp
  | n + 1, p, a, hr, hp, ha => by
    rw [ancestors.go] at ha
    split at ha
    · rw [List.mem_singleton] at ha; rw [ha]; exact hp
    next q hq =>
      rcases List.mem_cons.1 ha with rfl | ha
      · exact hp
      · exact isWay_of_mem_go n q ((rooted_of_parent? hq).trans hr) (isWay_of_parent? hr hq) ha

/-- The paths around spellings of a rooted path lead to the same spots. -/
theorem alike_ancestors {p q : FilePath} (h : p.Respells q) (hr : p.rooted = true)
    (hp : IsWay p.pieces) (hq : IsWay q.pieces) (hpath : isPath p = true) (hpath' : isPath q = true) :
    List.Forall₂ Alike p.ancestors q.ancestors := by
  have hr' : q.rooted = true := (rooted_congr h).symm.trans hr
  have haround := List.forall₂_iff_zip.1 (respells_ancestors h)
  refine List.forall₂_iff_zip.2 ⟨haround.1, fun {a b} hab => ?_⟩
  obtain ⟨ha, hb⟩ := List.of_mem_zip hab
  obtain ⟨hra, hpa⟩ := pieces_of_mem_go _ p ha
  obtain ⟨hrb, hpb⟩ := pieces_of_mem_go _ q hb
  refine (haround.2 hab).alike (isWay_of_mem_go _ p hr hp ha) (isWay_of_mem_go _ q hr' hq hb) ?_
  rw [isPath_of_sublist hra hpa.sublist hpath, isPath_of_sublist hrb hpb.sublist hpath']

/-! ### Disks of one shape -/

/-- An entry, whatever a file holds. -/
def Entry.shape : Entry → Entry
  | .file _ => .file .binary
  | e => e

def Spot.shape : Spot → Spot
  | .found place e => .found place e.shape
  | s => s

def Trail.shape : Trail → Trail
  | .spot s => .spot s.shape
  | .link here target rest => .link here target rest

/-- Trees that differ in what their files hold only. -/
def FileTree.SameShape (t u : FileTree) : Prop :=
  ∀ place, (t.get? place).map Entry.shape = (u.get? place).map Entry.shape

theorem Entry.shape_cases {x y : Entry} (h : x.shape = y.shape) :
    x = y ∨ ∃ c c', x = .file c ∧ y = .file c' := by
  cases x <;> cases y <;> simp_all [Entry.shape]

theorem shape_cases {x y : Option Entry} (h : x.map Entry.shape = y.map Entry.shape) :
    x = y ∨ ∃ c c', x = some (.file c) ∧ y = some (.file c') := by
  cases x with
  | none => exact .inl (Option.map_eq_none_iff.1 h.symm).symm
  | some x =>
    cases y with
    | none => cases h
    | some y =>
      rcases Entry.shape_cases (Option.some.inj h) with rfl | ⟨c, c', rfl, rfl⟩
      · exact .inl rfl
      · exact .inr ⟨c, c', rfl, rfl⟩

theorem Spot.shape_cases {s s' : Spot} (h : s.shape = s'.shape) :
    s = s' ∨ ∃ place c c', s = .found place (.file c) ∧ s' = .found place (.file c') := by
  cases s with
  | found place e =>
    cases s' with
    | found place' e' =>
      obtain ⟨rfl, he⟩ := Spot.found.inj h
      rcases Entry.shape_cases he with rfl | ⟨c, c', rfl, rfl⟩
      · exact .inl rfl
      · exact .inr ⟨place, c, c', rfl, rfl⟩
    | _ => cases h
  | _ => cases s' <;> first | exact .inl h | cases h

namespace FileTree.SameShape

variable {t u : FileTree}

theorem trail (h : t.SameShape u) (through : Bool) : ∀ (here : Place) (ps : List String),
    (t.trail through here ps).shape = (u.trail through here ps).shape
  | here, [] => rfl
  | here, piece :: rest => by
    have ih := fun here => trail h through here rest
    rw [FileTree.trail, FileTree.trail]
    split
    next name hc =>
      split
      next hname =>
        rcases shape_cases (h (here ++ [name])) with hsame | ⟨c, c', ht, hu⟩
        · rw [hsame]
          cases hg : u.get? (here ++ [name]) with
          | none => rfl
          | some e =>
            cases e with
            | directory => exact ih _
            | link target => rfl
            | file c => rfl
        · rw [ht, hu]
          cases rest <;> rfl
      next => rfl
    · exact ih _
    · exact ih _

theorem resolve (h : t.SameShape u) (through : Bool) : ∀ (limit : Nat) (here : Place)
    (ps : List String),
    (t.resolve through limit here ps).shape = (u.resolve through limit here ps).shape
  | limit, here, ps => by
    have htrail := h.trail through here ps
    rw [FileTree.resolve, FileTree.resolve]
    cases ht : t.trail through here ps with
    | spot s =>
      cases hu : u.trail through here ps with
      | spot s' => rw [ht, hu] at htrail; exact Trail.spot.inj htrail
      | link => rw [ht, hu] at htrail; cases htrail
    | link place target rest =>
      cases hu : u.trail through here ps with
      | spot => rw [ht, hu] at htrail; cases htrail
      | link =>
        rw [ht, hu] at htrail
        cases htrail
        cases limit with
        | zero => rfl
        | succ limit => exact resolve h through limit _ _

theorem isOpen (h : t.SameShape u) (place : Place) : t.isOpen place = u.isOpen place := by
  have hdir : ∀ q, (t.get? q = some .directory) ↔ (u.get? q = some .directory) := fun q => by
    rcases shape_cases (h q) with hsame | ⟨c, c', ht, hu⟩
    · rw [hsame]
    · rw [ht, hu]; simp
  simp only [FileTree.isOpen, ne_eq, hdir]

end FileTree.SameShape

namespace Disk

variable {d e d' : Disk} {p q : FilePath}

/-- Disks that differ in what their files hold only. -/
structure SameShape (d e : Disk) : Prop where
  home : e.home = d.home
  tree : d.tree.SameShape e.tree

theorem SameShape.refl (d : Disk) : d.SameShape d := ⟨rfl, fun _ => rfl⟩

/-- A path leads to the same spot on both, or to a file that may hold something else. -/
theorem SameShape.locate (h : d.SameShape e) (hpq : p.Alike q) (through : Bool) :
    d.locate through p = e.locate through q ∨ ∃ place c c',
      d.locate through p = .found place (.file c) ∧ e.locate through q = .found place (.file c') := by
  refine Spot.shape_cases ?_
  rw [← hpq.locate e through, Disk.locate, Disk.locate]
  split
  · rfl
  · split
    · rfl
    · rw [h.home]
      exact h.tree.resolve ..

theorem SameShape.put? (h : d.SameShape e) {place : Place} {x y : Entry} (hxy : x.shape = y.shape)
    (hput : d.put? place x = some d') : ∃ e', e.put? place y = some e' ∧ d'.SameShape e' := by
  obtain ⟨hhome, ht⟩ := put?_eq_some hput
  have hopen : e.tree.isOpen place = true := by
    rw [← h.tree.isOpen, FileTree.put?] at *
    split at ht
    next ho => exact ho
    next => cases ht
  obtain ⟨e', he'⟩ : ∃ e', e.put? place y = some e' := by
    rw [Disk.put?]
    split
    · exact ⟨_, rfl⟩
    next hn => rw [FileTree.put?, dif_pos hopen] at hn; cases hn
  obtain ⟨hhome', ht'⟩ := put?_eq_some he'
  refine ⟨e', he', hhome'.trans (h.home.trans hhome.symm), fun q => ?_⟩
  rw [FileTree.get?_of_put? ht, FileTree.get?_of_put? ht']
  split
  · rw [Option.map_some, Option.map_some, hxy]
  · exact h.tree q

/-! ### What is done by spellings of one path -/

theorem SameShape.isDirectory (h : d.SameShape e) (hpq : p.Alike q) :
    d.isDirectory p = e.isDirectory q := by
  rw [Disk.isDirectory, Disk.isDirectory]
  rcases h.locate hpq true with hsame | ⟨place, c, c', hp, hq⟩
  · rw [hsame]
  · rw [hp, hq]

theorem SameShape.write? (h : d.SameShape e) (hpq : p.Alike q) {c : Content} (c' : Content)
    (hw : d.write? p c = some d') : ∃ e', e.write? q c' = some e' ∧ d'.SameShape e' := by
  have hshape : (Entry.file c).shape = (Entry.file c').shape := rfl
  rw [Disk.write?] at hw ⊢
  rcases h.locate hpq true with hsame | ⟨place, _, _, hp, hq⟩
  · rw [← hsame]
    split at hw
    · exact h.put? hshape hw
    · exact h.put? hshape hw
    · cases hw
  · rw [hp] at hw
    rw [hq]
    exact h.put? hshape hw

/-- A directory is made on both disks, or on neither for the same reason. -/
inductive SameMade : Except Refusal Disk → Except Refusal Disk → Prop
  | made {d e : Disk} : d.SameShape e → SameMade (.ok d) (.ok e)
  | refused (r : Refusal) : SameMade (.error r) (.error r)

theorem SameShape.symm (h : d.SameShape e) : e.SameShape d :=
  ⟨h.home.symm, fun place => (h.tree place).symm⟩

theorem SameShape.makeDirectory (h : d.SameShape e) (hpq : p.Alike q) :
    SameMade (d.makeDirectory p) (e.makeDirectory q) := by
  rw [Disk.makeDirectory, Disk.makeDirectory]
  rcases h.locate hpq false with hsame | ⟨place, c, c', hp, hq⟩
  · rw [hsame]
    split
    next place _ _ =>
      cases hd : d.put? place .directory with
      | some d' =>
        obtain ⟨e', he, hsame⟩ := h.put? rfl hd
        rw [he]
        exact .made hsame
      | none =>
        cases he : e.put? place .directory with
        | some e' =>
          obtain ⟨d', hd', -⟩ := h.symm.put? rfl he
          rw [hd] at hd'; cases hd'
        | none => exact .refused _
    · exact .refused _
    · exact .refused _
  · rw [hp, hq]
    exact .refused _

theorem makeChain_sameShape {ps qs : List FilePath} (hps : List.Forall₂ Alike ps qs) :
    ∀ {d e : Disk}, d.SameShape e → (d.makeChain ps).2 = (e.makeChain qs).2 ∧
      (d.makeChain ps).1.SameShape (e.makeChain qs).1 := by
  induction hps with
  | nil => exact fun h => ⟨rfl, h⟩
  | @cons p q ps qs hpq _ ih =>
    intro d e h
    have hempty : p.components.isEmpty = q.components.isEmpty := congrArg List.isEmpty hpq.respells
    rw [makeChain, makeChain, hempty]
    split
    · exact ⟨rfl, h⟩
    · have hmade := h.makeDirectory hpq
      generalize d.makeDirectory p = r, e.makeDirectory q = r' at hmade
      cases hmade with
      | made hsame => exact ⟨rfl, hsame⟩
      | refused refusal =>
        cases refusal with
        | other => exact ⟨h.isDirectory hpq, h⟩
        | missing =>
          obtain ⟨hmade, hsame⟩ := ih h
          generalize d.makeChain ps = chain, e.makeChain qs = chain' at hmade hsame
          obtain ⟨d, made⟩ := chain
          obtain ⟨e, made'⟩ := chain'
          obtain rfl : made = made' := hmade
          cases made with
          | false => exact ⟨rfl, hsame⟩
          | true =>
            have hlast := hsame.makeDirectory hpq
            dsimp only
            generalize d.makeDirectory p = r, e.makeDirectory q = r' at hlast
            cases hlast with
            | made hsame => exact ⟨rfl, hsame⟩
            | refused => exact ⟨hsame.isDirectory hpq, hsame⟩

end Disk

end TypeGen.Store

namespace TypeGen.Project

open TypeGen.Store TypeGen.Store.FilePath

variable {d e d' : Disk} {p q : FilePath} {text : String}

theorem saveInto_sameShape (h : d.SameShape e) (hpq : p.Alike q) (text' : String)
    (hs : saveInto d p text = (d', .ok ())) :
    ∃ e', saveInto e q text' = (e', .ok ()) ∧ d'.SameShape e' := by
  rw [saveInto] at hs ⊢
  split at hs
  next hw =>
    cases hs
    obtain ⟨e', hw', hsame⟩ := h.write? hpq (.text text') hw
    exact ⟨e', by rw [hw'], hsame⟩
  next => cases hs

/-- What is saved by one spelling of a path is saved by another as well, whatever the text, on disks
that differ in what their files hold. -/
theorem save_sameShape (h : d.SameShape e) (hpq : p.SameFile q) (text' : String)
    (hs : save d p text = (d', .ok ())) :
    ∃ e', save e q text' = (e', .ok ()) ∧ d'.SameShape e' := by
  have hr := hpq.rooted
  have hr' : q.rooted = true := (rooted_congr hpq.respells).symm.trans hr
  obtain ⟨name, -, hname⟩ := hpq.ends'.exists_fileName?
  obtain ⟨p', hp'⟩ := exists_parent?_of_fileName? ((fileName?_congr hpq.respells).trans hname)
  obtain ⟨q', hq'⟩ := exists_parent?_of_fileName? hname
  have hparent : p'.Respells q' := by
    rw [Respells, components_of_parent? hp', components_of_parent? hq', hpq.respells]
  have haround := alike_ancestors hparent ((rooted_of_parent? hp').trans hr)
    (isWay_of_parent? hr hp') (isWay_of_parent? hr' hq')
    (isPath_of_sublist (rooted_of_parent? hp') (prefix_of_parent? hp').sublist hpq.isPath)
    (isPath_of_sublist (rooted_of_parent? hq') (prefix_of_parent? hq').sublist hpq.isPath')
  obtain ⟨hmade, hsame⟩ := Disk.makeChain_sameShape haround h
  rw [save, hp'] at hs
  rw [save, hq']
  simp only [Disk.makeDirectories] at hs ⊢
  generalize d.makeChain p'.ancestors = chain, e.makeChain q'.ancestors = chain' at hmade hsame hs ⊢
  obtain ⟨d₁, made⟩ := chain
  obtain ⟨e₁, made'⟩ := chain'
  obtain rfl : made = made' := hmade
  cases made with
  | false => cases hs
  | true => exact saveInto_sameShape hsame hpq.alike text' hs

/-- What is recorded in a file is found by any spelling of its path. -/
theorem recorded_alike (hpq : p.Alike q) {m : Option Metadata} (h : recorded d p = .ok m) :
    recorded d q = .ok m := by
  have hthere : d.isThere p = d.isThere q := by rw [Disk.isThere, Disk.isThere, hpq.locate]
  have hread : d.readText? p = d.readText? q := by
    rw [Disk.readText?, Disk.readText?, Disk.read, Disk.read, hpq.locate]
  rw [recorded, ← hthere, ← hread]
  rw [recorded] at h
  split at h
  next hyes =>
    rw [if_pos hyes]
    split at h
    next text ht => exact h
    next => cases h
  next hno => rw [if_neg hno]; exact h

end TypeGen.Project
