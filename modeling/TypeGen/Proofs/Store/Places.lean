import TypeGen.Proofs.Path.Following

/-!
Places of paths. In a tree without links a path leads to one place, and the same path leads to the
same place in every tree with the same directories. A file is found there, or may be put there.
-/

namespace TypeGen.Store

open FilePath

def Entry.isLink : Entry → Bool
  | .link _ => true
  | _ => false

namespace FileTree

/-- Every entry is found at its place. -/
theorem mem_entries {t : FileTree} {place : Place} {e : Entry} :
    (place, e) ∈ t.entries ↔ t.get? place = some e := by
  have hfind : ∀ {es : Entries}, IsSorted es → (place, e) ∈ es → es.lookup place = some e := by
    intro es hs h
    induction es with
    | nil => cases h
    | cons x xs ih =>
      obtain ⟨hx, hxs⟩ := List.pairwise_cons.1 hs
      rw [lookup_cons_eq_ite]
      rcases List.mem_cons.1 h with rfl | h
      · rw [if_pos rfl]
      · have hlt := hx _ h
        have hne : place ≠ x.1 := fun h0 => by rw [h0] at hlt; exact Std.lt_irrefl hlt
        rw [if_neg hne, ih hxs h]
  constructor
  · exact hfind t.sorted
  · intro h
    obtain ⟨before, after, hsplit, -⟩ := List.lookup_eq_some_iff.1 h
    rw [hsplit]; simp

/-- No entry is a link. -/
def NoLinks (t : FileTree) : Prop := ∀ place target, t.get? place ≠ some (.link target)

instance (t : FileTree) : Decidable t.NoLinks :=
  decidable_of_iff (∀ e ∈ t.entries, e.2.isLink = false) (by
    constructor
    · intro h place target hp
      cases h _ (mem_entries.2 hp)
    · rintro h ⟨place, e⟩ hm
      cases e with
      | link target => exact absurd (mem_entries.1 hm) (h place target)
      | directory => rfl
      | file c => rfl)

/-- All directories of one tree are directories of another. -/
def Grows (t u : FileTree) : Prop :=
  ∀ place, t.get? place = some .directory → u.get? place = some .directory

theorem Grows.refl (t : FileTree) : t.Grows t := fun _ h => h

theorem Grows.trans {t u v : FileTree} (h : t.Grows u) (h' : u.Grows v) : t.Grows v :=
  fun place hp => h' place (h place hp)

/-- What a directory is in is a directory. -/
theorem get?_dropLast {t : FileTree} {place : Place} (h : (t.get? place).isSome = true) :
    place = [] ∨ t.get? place.dropLast = some .directory := by
  rcases List.eq_nil_or_concat place with rfl | ⟨init, name, rfl⟩
  · exact .inl rfl
  · refine .inr ?_
    rw [List.concat_eq_append] at h ⊢
    rw [List.dropLast_concat]
    exact t.closed init name h

theorem get?_dropLast_of_directory {t : FileTree} {place : Place}
    (h : t.get? place = some .directory) : t.get? place.dropLast = some .directory := by
  have hthere : (t.get? place).isSome = true := by rw [h]; rfl
  rcases get?_dropLast hthere with rfl | hd
  · exact t.root
  · exact hd

end FileTree

/-- The place at which a file is found, or may be put. -/
def Spot.filePlace? : Spot → Option Place
  | .found place (.file _) => some place
  | .vacant place false => some place
  | _ => none

theorem Spot.Ends.of_filePlace? {ps : List String} {place : Place} : ∀ {s : Spot}, s.Ends ps →
    s.filePlace? = some place → EndsInName ps
  | .found _ (.file _), h, _ => h
  | .vacant _ false, h, _ => h

/-- What is at the spot is what the tree says of its place. -/
def Spot.Agrees (t : FileTree) : Spot → Prop
  | .found place e => t.get? place = some e
  | .vacant place _ => t.get? place = none ∧ place ≠ [] ∧ t.get? place.dropLast = some .directory
  | _ => True

theorem Spot.filePlace?_eq_some {s : Spot} {place : Place} :
    s.filePlace? = some place ↔ (∃ c, s = .found place (.file c)) ∨ s = .vacant place false := by
  cases s with
  | found q e => cases e <;> simp [filePlace?]
  | vacant q slashed => cases slashed <;> simp [filePlace?]
  | missing => simp [filePlace?]
  | obstructed => simp [filePlace?]

/-- Where a file is, or may be put, there is no link. -/
theorem Spot.Agrees.ne_link {t : FileTree} {s : Spot} {place : Place} (h : s.Agrees t)
    (hs : s.filePlace? = some place) (target : FilePath) : t.get? place ≠ some (.link target) := by
  rcases filePlace?_eq_some.1 hs with ⟨c, rfl⟩ | rfl
  · rw [show t.get? place = some (.file c) from h]; simp
  · rw [show t.get? place = none from h.1]; simp

/-! ### Trails -/

theorem trail_agrees {t : FileTree} {through : Bool} {s : Spot} : ∀ {here : Place} {ps : List String},
    t.get? here = some .directory → t.trail through here ps = .spot s → s.Agrees t
  | here, [], hd, h => by
    rw [FileTree.trail] at h; cases h; exact hd
  | here, piece :: rest, hd, h => by
    rw [FileTree.trail] at h
    split at h
    next name hc =>
      split at h
      · split at h
        next hg => exact trail_agrees hg h
        next target hg =>
          split at h
          · cases h; exact hg
          · cases h
        next c hg =>
          cases h
          split
          · exact hg
          · trivial
        next hg =>
          cases h
          split
          · exact ⟨hg, by simp, by rwa [List.dropLast_concat]⟩
          · trivial
      · cases h; trivial
    · exact trail_agrees (FileTree.get?_dropLast_of_directory hd) h
    · exact trail_agrees hd h

/-- A link that is come to is in a directory. -/
theorem directory_of_trail_link {t : FileTree} {through : Bool} {place : Place} {target : FilePath}
    {left : List String} : ∀ {here : Place} {ps : List String}, t.get? here = some .directory →
      t.trail through here ps = .link place target left → t.get? place = some .directory
  | here, [], _, h => by rw [FileTree.trail] at h; cases h
  | here, piece :: rest, hd, h => by
    rw [FileTree.trail] at h
    split at h
    next name hc =>
      split at h
      · split at h
        next hg => exact directory_of_trail_link hg h
        next hg =>
          split at h
          · cases h
          · cases h; exact hd
        next hg => cases h
        next hg => cases h
      · cases h
    · exact directory_of_trail_link (FileTree.get?_dropLast_of_directory hd) h
    · exact directory_of_trail_link hd h

theorem resolve_agrees {t : FileTree} (through : Bool) : ∀ (limit : Nat) {here : Place}
    {ps : List String}, t.get? here = some .directory → (t.resolve through limit here ps).Agrees t
  | 0, here, ps, hd => by
    rw [FileTree.resolve]
    split
    next h => exact trail_agrees hd h
    next => trivial
  | limit + 1, here, ps, hd => by
    rw [FileTree.resolve]
    split
    next h => exact trail_agrees hd h
    next place target rest h =>
      refine resolve_agrees through limit ?_
      split
      · exact t.root
      · exact directory_of_trail_link hd h

theorem resolve_of_trail {t : FileTree} {through : Bool} {limit : Nat} {here : Place}
    {ps : List String} {s : Spot} (h : t.trail through here ps = .spot s) :
    t.resolve through limit here ps = s := by
  cases limit <;> rw [FileTree.resolve, h]

/-- Without links a trail does not stop before it ends. -/
theorem exists_trail_eq_spot {t : FileTree} (hl : t.NoLinks) (through : Bool) :
    ∀ (here : Place) (ps : List String), ∃ s, t.trail through here ps = .spot s
  | here, [] => ⟨_, rfl⟩
  | here, piece :: rest => by
    rw [FileTree.trail]
    split
    next name hc =>
      split
      · split
        · exact exists_trail_eq_spot hl through _ rest
        next target hg => exact absurd hg (hl _ target)
        · exact ⟨_, rfl⟩
        · exact ⟨_, rfl⟩
      · exact ⟨_, rfl⟩
    · exact exists_trail_eq_spot hl through _ rest
    · exact exists_trail_eq_spot hl through _ rest

/-! ### Ways -/

namespace FileTree

/-- Components that lead from one directory to another, through directories. -/
inductive Reaches (t : FileTree) : Place → List Component → Place → Prop
  | here {place : Place} : t.Reaches place [] place
  | name {place dir : Place} {n : String} {cs : List Component} (hn : isName n = true)
    (hd : t.get? (place ++ [n]) = some .directory) (h : t.Reaches (place ++ [n]) cs dir) :
    t.Reaches place (.name n :: cs) dir
  | parent {place dir : Place} {cs : List Component} (h : t.Reaches place.dropLast cs dir) :
    t.Reaches place (.parent :: cs) dir

/-- Components that lead to a file, or to a place for one. -/
inductive LeadsToFile (t : FileTree) (here : Place) : List Component → Place → Prop
  | last {dir : Place} {cs : List Component} {n : String} (h : t.Reaches here cs dir)
    (hn : isName n = true) (hfree : t.get? (dir ++ [n]) ≠ some .directory) :
    t.LeadsToFile here (cs ++ [.name n]) (dir ++ [n])

theorem Reaches.grows {t u : FileTree} (hg : t.Grows u) {here dir : Place} {cs : List Component}
    (h : t.Reaches here cs dir) : u.Reaches here cs dir := by
  induction h with
  | here => exact .here
  | name hn hd _ ih => exact .name hn (hg _ hd) ih
  | parent _ ih => exact .parent ih

theorem LeadsToFile.grows {t u : FileTree} (hg : t.Grows u) {here place : Place}
    {cs : List Component} (h : t.LeadsToFile here cs place) (hu : u.get? place ≠ some .directory) :
    u.LeadsToFile here cs place := by
  cases h with
  | last hr hn _ => exact .last (hr.grows hg) hn hu

theorem LeadsToFile.name {t : FileTree} {here place : Place} {n : String} {cs : List Component}
    (hn : isName n = true) (hd : t.get? (here ++ [n]) = some .directory)
    (h : t.LeadsToFile (here ++ [n]) cs place) : t.LeadsToFile here (.name n :: cs) place := by
  cases h with
  | last hr hn' hfree => exact .last (.name hn hd hr) hn' hfree

theorem LeadsToFile.parent {t : FileTree} {here place : Place} {cs : List Component}
    (h : t.LeadsToFile here.dropLast cs place) : t.LeadsToFile here (.parent :: cs) place := by
  cases h with
  | last hr hn hfree => exact .last (.parent hr) hn hfree

/-- The name at the end taken off, what led to a file leads to its directory. -/
theorem LeadsToFile.reaches {t : FileTree} {here place : Place} {cs : List Component} {n : String}
    (h : t.LeadsToFile here (cs ++ [.name n]) place) :
    t.Reaches here cs place.dropLast ∧ isName n = true ∧ place = place.dropLast ++ [n] ∧
      t.get? place ≠ some .directory := by
  generalize hcs : cs ++ [Component.name n] = whole at h
  cases h with
  | last hr hn hfree =>
    obtain ⟨rfl, hlast⟩ := List.append_inj' hcs rfl
    cases hlast
    rw [List.dropLast_concat]
    exact ⟨hr, hn, rfl, hfree⟩

end FileTree

/-! ### Trails and ways -/

/-- A trail goes on from the directory that its first pieces lead to. -/
theorem trail_append {t : FileTree} {through : Bool} {dir : Place} (qs : List String) :
    ∀ {here : Place} (ps : List String), t.Reaches here (counted ps) dir →
      t.trail through here (ps ++ qs) = t.trail through dir qs
  | here, [], h => by cases h; rfl
  | here, piece :: rest, h => by
    rw [List.cons_append, FileTree.trail]
    rcases componentOf?_cases piece with ⟨n, hc⟩ | hc | hc
    · rw [counted_cons_some hc] at h
      cases h with
      | name hn hd h => simp only [hc, hn, hd, if_true]; exact trail_append qs rest h
    · rw [counted_cons_some hc] at h
      cases h with
      | parent h => simp only [hc]; exact trail_append qs rest h
    · rw [counted_cons_none hc] at h
      simp only [hc]
      exact trail_append qs rest h

theorem reaches_of_trail {t : FileTree} {through : Bool} {dir : Place} :
    ∀ {here : Place} {ps : List String}, t.trail through here ps = .spot (.found dir .directory) →
      t.Reaches here (counted ps) dir
  | here, [], h => by rw [FileTree.trail] at h; cases h; exact .here
  | here, piece :: rest, h => by
    rw [FileTree.trail] at h
    rcases componentOf?_cases piece with ⟨n, hc⟩ | hc | hc
    · simp only [hc] at h
      rw [counted_cons_some hc]
      split at h
      next hn =>
        split at h
        next hd => exact .name hn hd (reaches_of_trail h)
        next target hg => split at h <;> cases h
        next c hg => split at h <;> cases h
        next hg => split at h <;> cases h
      · cases h
    · simp only [hc] at h
      rw [counted_cons_some hc]
      exact .parent (reaches_of_trail h)
    · simp only [hc] at h
      rw [counted_cons_none hc]
      exact reaches_of_trail h

theorem trail_eq_directory {t : FileTree} {through : Bool} {here dir : Place} {ps : List String} :
    t.trail through here ps = .spot (.found dir .directory) ↔ t.Reaches here (counted ps) dir := by
  refine ⟨reaches_of_trail, fun h => ?_⟩
  have hend : t.trail through here (ps ++ []) = t.trail through dir [] := trail_append [] ps h
  rwa [List.append_nil] at hend

theorem leadsToFile_of_trail {t : FileTree} {through : Bool} {s : Spot} {place : Place}
    (hs : s.filePlace? = some place) : ∀ {here : Place} {ps : List String},
    t.trail through here ps = .spot s → t.LeadsToFile here (counted ps) place
  | here, [], h => by rw [FileTree.trail] at h; cases h; cases hs
  | here, piece :: rest, h => by
    rw [FileTree.trail] at h
    rcases componentOf?_cases piece with ⟨n, hc⟩ | hc | hc
    · simp only [hc] at h
      rw [counted_cons_some hc]
      -- a file, or the place for one, is at the end of the way
      have hend : isName n = true → t.get? (here ++ [n]) ≠ some .directory → rest = [] →
          place = here ++ [n] → t.LeadsToFile here (.name n :: counted rest) place := by
        rintro hn hfree rfl rfl
        exact .last .here hn hfree
      split at h
      next hn =>
        split at h
        next hd => exact (leadsToFile_of_trail hs h).name hn hd
        next target hg =>
          split at h
          · cases h; cases hs
          · cases h
        next c hg =>
          cases h
          split at hs
          next hrest =>
            cases hs
            exact hend hn (by rw [hg]; simp) (List.isEmpty_iff.1 hrest) rfl
          next => cases hs
        next hg =>
          cases h
          split at hs
          next hrest =>
            cases rest with
            | nil => cases hs; exact hend hn (by rw [hg]; simp) rfl rfl
            | cons x xs => cases hs
          next => cases hs
      · cases h; cases hs
    · simp only [hc] at h
      rw [counted_cons_some hc]
      exact (leadsToFile_of_trail hs h).parent
    · simp only [hc] at h
      rw [counted_cons_none hc]
      exact leadsToFile_of_trail hs h

theorem exists_trail_of_leadsToFile {t : FileTree} (hl : t.NoLinks) (through : Bool)
    {here place : Place} {ps : List String} (he : EndsInName ps)
    (h : t.LeadsToFile here (counted ps) place) :
    ∃ s, t.trail through here ps = .spot s ∧ s.filePlace? = some place := by
  obtain ⟨init, last, n, rfl, hn⟩ := he.exists_concat
  have hcounted : counted (init ++ [last]) = counted init ++ [.name n] := by
    rw [counted_append, counted_cons_some hn]; rfl
  rw [hcounted] at h
  obtain ⟨hr, hname, hplace, hfree⟩ := h.reaches
  rw [trail_append [last] init hr, FileTree.trail]
  simp only [hn, hname, if_true, ← hplace]
  cases hg : t.get? place with
  | none => exact ⟨_, rfl, rfl⟩
  | some e =>
    cases e with
    | directory => exact absurd hg hfree
    | link target => exact absurd hg (hl place target)
    | file c => exact ⟨_, rfl, rfl⟩

/-! ### Ways to a new file -/

/-- Where a way leads, a file that is put there is found at its end. -/
theorem FileTree.trail_put? {t u : FileTree} {place : Place} {c : Content}
    (hput : t.put? place (.file c) = some u) (hlink : ∀ target, t.get? place ≠ some (.link target)) :
    ∀ (here : Place) (ps : List String),
      (∃ q target rest, t.trail true here ps = .link q target rest ∧
        u.trail true here ps = .link q target rest) ∨
      ∃ s, t.trail true here ps = .spot s ∧
        (s.filePlace? = some place → u.trail true here ps = .spot (.found place (.file c)))
  | here, [] => .inr ⟨_, rfl, fun h => by cases h⟩
  | here, piece :: rest => by
    have hget := get?_of_put? hput
    rw [trail, trail]
    split
    next name hc =>
      split
      next hname =>
        cases hq : t.get? (here ++ [name]) with
        | none =>
          refine .inr ⟨_, rfl, fun hs => ?_⟩
          split at hs
          next hidle =>
            cases rest with
            | nil =>
              obtain rfl : here ++ [name] = place := by simpa [Spot.filePlace?] using hs
              rw [hget, if_pos rfl]; rfl
            | cons => simp [Spot.filePlace?] at hs
          next => cases hs
        | some e =>
          cases e with
          | directory =>
            simp only [get?_directory_of_put? hput hq]
            exact trail_put? hput hlink _ rest
          | link target =>
            have hne : here ++ [name] ≠ place := fun h0 => hlink target (h0 ▸ hq)
            rw [hget, if_neg hne, hq]
            simp
          | file c' =>
            refine .inr ⟨_, rfl, fun hs => ?_⟩
            cases rest with
            | nil =>
              obtain rfl : here ++ [name] = place := by simpa [Spot.filePlace?] using hs
              rw [hget, if_pos rfl]; rfl
            | cons => simp [Spot.filePlace?] at hs
      next => exact .inr ⟨_, rfl, fun hs => by cases hs⟩
    · exact trail_put? hput hlink _ rest
    · exact trail_put? hput hlink _ rest

theorem FileTree.resolve_put? {t u : FileTree} {place : Place} {c : Content}
    (hput : t.put? place (.file c) = some u) (hlink : ∀ target, t.get? place ≠ some (.link target))
    (limit : Nat) (here : Place) (ps : List String)
    (h : (t.resolve true limit here ps).filePlace? = some place) :
    u.resolve true limit here ps = .found place (.file c) := by
  rcases trail_put? hput hlink here ps with ⟨_, target, rest, ht, hu⟩ | ⟨s, ht, hu⟩
  · cases limit with
    | zero => rw [resolve, ht] at h; cases h
    | succ limit =>
      rw [resolve, ht] at h
      rw [resolve, hu]
      exact resolve_put? hput hlink limit _ _ h
  · rw [resolve_of_trail ht] at h
    exact resolve_of_trail (hu h)

/-! ### Paths to files -/

namespace Disk

/-- Where a path is followed from. -/
def startOf (d : Disk) (p : FilePath) : Place := if p.rooted then [] else d.home

/-- The place at which a path finds a file, or may put one. -/
def filePlace? (d : Disk) (p : FilePath) : Option Place := (d.locate true p).filePlace?

theorem startOf_congr {d e : Disk} (h : e.home = d.home) (p : FilePath) :
    e.startOf p = d.startOf p := by rw [startOf, startOf, h]

theorem get?_startOf (d : Disk) (p : FilePath) : d.tree.get? (d.startOf p) = some .directory := by
  rw [startOf]
  split
  · exact d.tree.root
  · exact d.home_isDirectory

theorem locate_of_trail {d : Disk} {through : Bool} {p : FilePath} {s : Spot}
    (hne : p.pieces ≠ [] ∨ p.rooted = true) (hpath : isPath p = true)
    (h : d.tree.trail through (d.startOf p) p.pieces = .spot s) : d.locate through p = s := by
  have hne' : (p.pieces.isEmpty && !p.rooted) = false := by
    rcases hne with h | h
    · simp [h]
    · simp [h]
  rw [locate, hne', hpath]
  exact resolve_of_trail h

/-- What a path leads to without links, if it leads anywhere. -/
theorem trail_of_locate {d : Disk} (hl : d.tree.NoLinks) {through : Bool} {p : FilePath} {s : Spot}
    (h : d.locate through p = s) (hm : s ≠ .missing) (ho : ∀ cause, s ≠ .obstructed cause) :
    isPath p = true ∧ d.tree.trail through (d.startOf p) p.pieces = .spot s := by
  rw [locate] at h
  split at h
  · exact absurd h.symm hm
  · split at h
    · exact absurd h.symm (ho _)
    next hpath =>
      obtain ⟨s', hs'⟩ := exists_trail_eq_spot hl through (d.startOf p) p.pieces
      have hres : d.tree.resolve through linkLimit (d.startOf p) p.pieces = s := h
      exact ⟨by simpa using hpath, by rw [← hres, resolve_of_trail hs', hs']⟩

theorem locate_agrees (d : Disk) (through : Bool) (p : FilePath) :
    (d.locate through p).Agrees d.tree := by
  rw [locate]
  split
  · trivial
  · split
    · trivial
    · exact resolve_agrees through linkLimit (d.get?_startOf p)

theorem filePlace?_eq_some {d : Disk} (hl : d.tree.NoLinks) {p : FilePath} {place : Place} :
    d.filePlace? p = some place ↔ isPath p = true ∧ EndsInName p.pieces ∧
      d.tree.LeadsToFile (d.startOf p) (counted p.pieces) place := by
  constructor
  · intro h
    have hm : d.locate true p ≠ .missing := fun h0 => by rw [filePlace?, h0] at h; cases h
    have ho : ∀ cause, d.locate true p ≠ .obstructed cause := fun cause h0 => by
      rw [filePlace?, h0] at h; cases h
    obtain ⟨hpath, htrail⟩ := trail_of_locate hl rfl hm ho
    exact ⟨hpath, (locate_ends d true p).of_filePlace? h, leadsToFile_of_trail h htrail⟩
  · rintro ⟨hpath, he, h⟩
    obtain ⟨s, htrail, hs⟩ := exists_trail_of_leadsToFile hl true he h
    rw [filePlace?, locate_of_trail (.inl he.ne_nil) hpath htrail, hs]

theorem filePlace?_grows {d e : Disk} (hd : d.tree.NoLinks) (he : e.tree.NoLinks)
    (hhome : e.home = d.home) (hg : d.tree.Grows e.tree) {p : FilePath} {place : Place}
    (h : d.filePlace? p = some place) (hu : e.tree.get? place ≠ some .directory) :
    e.filePlace? p = some place := by
  obtain ⟨hpath, hends, hway⟩ := (filePlace?_eq_some hd).1 h
  refine (filePlace?_eq_some he).2 ⟨hpath, hends, ?_⟩
  rw [startOf_congr hhome]
  exact hway.grows hg hu

/-- The place of a file has the name that its path ends in. -/
theorem getLast?_filePlace? {d : Disk} (hl : d.tree.NoLinks) {p : FilePath} {place : Place}
    (h : d.filePlace? p = some place) : ∃ name, place.getLast? = some name ∧
      p.fileName? = some name := by
  obtain ⟨-, hends, hway⟩ := (filePlace?_eq_some hl).1 h
  obtain ⟨init, n, hcounted⟩ := hends.exists_counted
  rw [hcounted] at hway
  obtain ⟨-, -, hplace, -⟩ := hway.reaches
  refine ⟨n, by rw [hplace, List.getLast?_concat], ?_⟩
  rw [fileName?_eq_some, components_eq, hcounted, ← List.append_assoc, List.getLast?_concat]

theorem readText?_eq_some {d : Disk} {p : FilePath} {text : String} :
    d.readText? p = some text ↔
      ∃ place, d.filePlace? p = some place ∧ d.tree.get? place = some (.file (.text text)) := by
  have hagrees := d.locate_agrees true p
  rw [readText?_eq_some_iff, read_eq_ok]
  constructor
  · rintro ⟨place, hloc⟩
    rw [hloc] at hagrees
    exact ⟨place, by rw [filePlace?, hloc]; rfl, hagrees⟩
  · rintro ⟨place, hplace, hget⟩
    refine ⟨place, ?_⟩
    rcases Spot.filePlace?_eq_some.1 hplace with ⟨c, hloc⟩ | hloc
    · rw [hloc, Spot.Agrees, hget] at hagrees
      cases hagrees
      exact hloc
    · rw [hloc, Spot.Agrees, hget] at hagrees
      cases hagrees.1

theorem isFile_eq_true {d : Disk} {p : FilePath} :
    d.isFile p = true ↔ ∃ place c, d.filePlace? p = some place ∧ d.tree.get? place = some (.file c) := by
  have hagrees := d.locate_agrees true p
  rw [isFile, filePlace?]
  cases hloc : d.locate true p with
  | found place e =>
    rw [hloc] at hagrees
    cases e with
    | file c => simpa [Spot.filePlace?] using ⟨c, hagrees⟩
    | directory => simp [Spot.filePlace?]
    | link target => simp [Spot.filePlace?]
  | vacant place slashed =>
    rw [hloc] at hagrees
    cases slashed <;> simp_all [Spot.Agrees, Spot.filePlace?]
  | missing => simp [Spot.filePlace?]
  | obstructed => simp [Spot.filePlace?]

/-- A path leads to a directory if its components do. -/
theorem locate_eq_directory {d : Disk} (hl : d.tree.NoLinks) (through : Bool) {p : FilePath}
    {dir : Place} : d.locate through p = .found dir .directory ↔ isPath p = true ∧
      (p.pieces ≠ [] ∨ p.rooted = true) ∧ d.tree.Reaches (d.startOf p) (counted p.pieces) dir := by
  constructor
  · intro hloc
    obtain ⟨hpath, htrail⟩ := trail_of_locate hl hloc (by simp) (by simp)
    refine ⟨hpath, ?_, trail_eq_directory.1 htrail⟩
    rw [locate] at hloc
    split at hloc
    · cases hloc
    next hempty => by_cases hp : p.pieces = [] <;> simp_all
  · rintro ⟨hpath, hne, hway⟩
    exact locate_of_trail hne hpath (trail_eq_directory.2 hway)

/-- A directory is still found by its path once a tree has grown. -/
theorem locate_directory_grows {d e : Disk} (hl : d.tree.NoLinks) (hhome : e.home = d.home)
    (hg : d.tree.Grows e.tree) {through : Bool} {p : FilePath} {dir : Place}
    (h : d.locate through p = .found dir .directory) :
    e.locate through p = .found dir .directory := by
  obtain ⟨hpath, hne, hway⟩ := (locate_eq_directory hl through).1 h
  rw [← startOf_congr hhome] at hway
  exact locate_of_trail hne hpath (trail_eq_directory.2 (hway.grows hg))

theorem isDirectory_iff {d : Disk} {p : FilePath} :
    d.isDirectory p = true ↔ ∃ dir, d.locate true p = .found dir .directory := by
  rw [isDirectory]
  split
  next dir hloc => simp [hloc]
  next hno => simpa using hno

theorem isDirectory_grows {d e : Disk} (hl : d.tree.NoLinks) (hhome : e.home = d.home)
    (hg : d.tree.Grows e.tree) {p : FilePath} (h : d.isDirectory p = true) :
    e.isDirectory p = true := by
  obtain ⟨dir, hloc⟩ := isDirectory_iff.1 h
  exact isDirectory_iff.2 ⟨dir, locate_directory_grows hl hhome hg hloc⟩

end Disk

end TypeGen.Store
