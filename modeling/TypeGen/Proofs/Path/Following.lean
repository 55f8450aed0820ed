import Mathlib.Algebra.GroupWithZero.Nat
import Mathlib.Algebra.Order.BigOperators.Group.List
import Mathlib.Algebra.Order.Group.Nat
import TypeGen.Proofs.Path.Joining
import TypeGen.Store.Disk

/-!
Following paths. A way that comes to a file, or to the place of one that is yet to be, ends in a
name; and two ways with the same components, each of which ends in a piece that counts, come to the
same spot, however many pieces that count for nothing they are written with.
-/

namespace TypeGen.Store

open FilePath

/-- The last piece is a name. -/
def EndsInName (ps : List String) : Prop :=
  ∃ last name, ps.getLast? = some last ∧ componentOf? last = some (.name name)

/-- The last piece counts. -/
def EndsActive (ps : List String) : Prop := ∃ last, ps.getLast? = some last ∧ isIdle last = false

/-- Nothing is left to follow, or what is left ends in a piece that counts. -/
def IsWay (ps : List String) : Prop := ps = [] ∨ EndsActive ps

/-- The pieces that count. -/
def active (ps : List String) : List String := ps.filter (!isIdle ·)

theorem EndsInName.ne_nil {ps : List String} (h : EndsInName ps) : ps ≠ [] := by
  rintro rfl
  obtain ⟨last, name, hl, _⟩ := h; cases hl

theorem EndsInName.endsActive {ps : List String} (h : EndsInName ps) : EndsActive ps := by
  obtain ⟨last, name, hl, hn⟩ := h
  refine ⟨last, hl, ?_⟩
  by_contra hi
  rw [componentOf?_of_isIdle (by simpa using hi)] at hn; cases hn

theorem EndsActive.ne_nil {ps : List String} (h : EndsActive ps) : ps ≠ [] := by
  rintro rfl
  obtain ⟨last, hl, _⟩ := h; cases hl

theorem EndsActive.append {qs : List String} (h : EndsActive qs) (ps : List String) :
    EndsActive (ps ++ qs) := by
  obtain ⟨last, hl, hi⟩ := h
  exact ⟨last, by rw [List.getLast?_append, hl]; rfl, hi⟩

theorem EndsInName.append {qs : List String} (h : EndsInName qs) (ps : List String) :
    EndsInName (ps ++ qs) := by
  obtain ⟨last, name, hl, hn⟩ := h
  exact ⟨last, name, by rw [List.getLast?_append, hl]; rfl, hn⟩

theorem endsInName_concat {s name : String} (h : componentOf? s = some (.name name))
    (ps : List String) : EndsInName (ps ++ [s]) := ⟨s, name, List.getLast?_concat, h⟩

theorem EndsInName.exists_concat {ps : List String} (h : EndsInName ps) :
    ∃ init last name, ps = init ++ [last] ∧ componentOf? last = some (.name name) := by
  obtain ⟨last, name, hl, hn⟩ := h
  exact ⟨ps.dropLast, last, name, (List.dropLast_append_getLast? _ hl).symm, hn⟩

theorem EndsInName.exists_counted {ps : List String} (h : EndsInName ps) :
    ∃ init name, counted ps = init ++ [.name name] := by
  obtain ⟨init, last, name, rfl, hn⟩ := h.exists_concat
  exact ⟨counted init, name, by rw [counted_append, counted_cons_some hn]; rfl⟩

/-- A path that ends in a name has it as its last piece. -/
theorem EndsInName.exists_fileName? {p : FilePath} (h : EndsInName p.pieces) :
    ∃ name, p.pieces.getLast? = some name ∧ p.fileName? = some name := by
  obtain ⟨init, last, name, hinit, hname⟩ := h.exists_concat
  obtain rfl : last = name := componentOf?_eq_name hname
  refine ⟨last, by rw [hinit, List.getLast?_concat], ?_⟩
  rw [fileName?_eq_some, components_eq, hinit, counted_append, counted_cons_some hname,
    ← List.append_assoc]
  exact List.getLast?_concat

/-- A path whose components end in a name has it as its last piece, if nothing idle follows. -/
theorem endsInName_of_fileName? {p : FilePath} {name last : String} {init : List String}
    (hn : p.fileName? = some name) (hp : p.pieces = init ++ [last]) (hlast : isIdle last = false) :
    EndsInName p.pieces := by
  rw [fileName?_eq_some, components_eq, hp, counted_append] at hn
  rcases componentOf?_cases last with ⟨n, hc⟩ | hc | hc
  · rw [hp]; exact endsInName_concat hc init
  · rw [counted_cons_some hc, ← List.append_assoc] at hn
    have hn' := (List.getLast?_concat).symm.trans hn
    cases hn'
  · rw [isIdle_iff_componentOf?.2 hc] at hlast; cases hlast

theorem IsWay.tail {x : String} {xs : List String} (h : IsWay (x :: xs)) : IsWay xs := by
  rcases h with h | ⟨last, hl, hi⟩
  · cases h
  · cases xs with
    | nil => exact .inl rfl
    | cons y ys => exact .inr ⟨last, by rwa [List.getLast?_cons_cons] at hl, hi⟩

theorem EndsInName.of_tail {x : String} {xs : List String} (h : EndsInName xs) :
    EndsInName (x :: xs) := h.append [x]

theorem active_active (ps : List String) : active (active ps) = active ps := by
  simp [active]

theorem active_append (ps qs : List String) : active (ps ++ qs) = active ps ++ active qs :=
  List.filter_append ..

theorem active_eq_map_text (ps : List String) :
    active ps = (counted ps).map Component.text := by
  induction ps with
  | nil => rfl
  | cons x xs ih =>
    rw [active, List.filter_cons]
    by_cases hx : isIdle x = true
    · rw [if_neg (by simp [hx])]
      rw [counted_cons_none (componentOf?_of_isIdle hx)]; exact ih
    · rw [if_pos (by simp [hx])]
      have hc : ∃ c, componentOf? x = some c ∧ c.text = x := by
        rw [componentOf?, if_neg hx]
        split
        next h => exact ⟨_, rfl, h.symm⟩
        next => exact ⟨_, rfl, rfl⟩
      obtain ⟨c, hc, ht⟩ := hc
      rw [counted_cons_some hc, List.map_cons, ht]
      exact congrArg (x :: ·) ih

theorem EndsActive.active {ps : List String} (h : EndsActive ps) : EndsActive (active ps) := by
  obtain ⟨last, hl, hi⟩ := h
  rw [← List.dropLast_append_getLast? _ hl, active_append,
    show Store.active [last] = [last] by simp [Store.active, hi]]
  exact ⟨last, List.getLast?_concat, hi⟩

/-- Nothing that is left of a way is dropped as a whole. -/
theorem active_isEmpty {ps : List String} (h : IsWay ps) : (active ps).isEmpty = ps.isEmpty := by
  rcases h with rfl | h
  · rfl
  · have h1 := h.ne_nil
    have h2 := h.active.ne_nil
    cases ps <;> cases hq : active _ <;> simp_all

/-! ### Paths that can be followed -/

theorem utf8ByteSize_joinWith (ps : List String) : (Text.joinWith "/" ps).utf8ByteSize =
    (ps.map String.utf8ByteSize).sum + (ps.length - 1) := by
  induction ps with
  | nil => rfl
  | cons p ps ih =>
    rw [Text.joinWith] at ih ⊢
    cases ps with
    | nil => simp
    | cons q qs =>
      rw [String.intercalate_cons_cons, String.utf8ByteSize_append, String.utf8ByteSize_append, ih]
      simp only [List.map_cons, List.sum_cons, List.length_cons]
      have hslash : ("/" : String).utf8ByteSize = 1 := rfl
      omega

/-- Pieces may be taken out of a path that can be followed. -/
theorem isPath_of_sublist {p q : FilePath} (hr : q.rooted = p.rooted)
    (h : q.pieces.Sublist p.pieces) (hp : isPath p = true) : isPath q = true := by
  rw [isPath, Bool.and_eq_true, decide_eq_true_eq, Bool.not_eq_true', List.any_eq_false] at hp ⊢
  refine ⟨Nat.lt_of_le_of_lt ?_ hp.1, fun piece hpiece => hp.2 piece (h.subset hpiece)⟩
  have hsum := (h.map String.utf8ByteSize).sum_le_sum fun _ _ => Nat.zero_le _
  have hlen := h.length_le
  rw [text, text, String.utf8ByteSize_append, String.utf8ByteSize_append, hr,
    utf8ByteSize_joinWith, utf8ByteSize_joinWith]
  omega

theorem isPath_of_locate {d : Disk} {through : Bool} {p : FilePath} {place : Place} {e : Entry}
    (h : d.locate through p = .found place e) : isPath p = true := by
  rw [Disk.locate] at h
  split at h
  · cases h
  · split at h
    · cases h
    next hpath => simpa using hpath

theorem isPath_of_isFile {d : Disk} {p : FilePath} (h : d.isFile p = true) : isPath p = true := by
  rw [Disk.isFile] at h
  split at h
  next hloc => exact isPath_of_locate hloc
  next => cases h

theorem isPath_of_readText? {d : Disk} {p : FilePath} {s : String} (h : d.readText? p = some s) :
    isPath p = true := by
  obtain ⟨place, hloc⟩ := Disk.exists_locate_of_readText? h
  exact isPath_of_locate hloc

theorem isPath_of_isDirectory {d : Disk} {p : FilePath} (h : d.isDirectory p = true) :
    isPath p = true := by
  rw [Disk.isDirectory] at h
  split at h
  next hloc => exact isPath_of_locate hloc
  next => cases h

/-! ### Where a way may end -/

/-- A spot that is a file, or where one may be, is the end of a way that ends in a name. -/
def Spot.Ends (ps : List String) : Spot → Prop
  | .found _ (.file _) => EndsInName ps
  | .vacant _ false => EndsInName ps
  | _ => True

/-- What a link leaves to be followed ends as the whole way does. -/
def Trail.Ends (ps : List String) : Trail → Prop
  | .spot s => s.Ends ps
  | .link _ _ rest => rest = [] ∧ EndsInName ps ∨ rest ≠ [] ∧ (EndsInName rest → EndsInName ps)

theorem Spot.Ends.imp {ps qs : List String} (h : EndsInName ps → EndsInName qs) :
    ∀ {s : Spot}, s.Ends ps → s.Ends qs
  | .found _ (.file _), hs => h hs
  | .vacant _ false, hs => h hs
  | .found _ .directory, _ => trivial
  | .found _ (.link _), _ => trivial
  | .vacant _ true, _ => trivial
  | .missing, _ => trivial
  | .obstructed _, _ => trivial

theorem Trail.Ends.of_tail {x : String} {xs : List String} :
    ∀ {r : Trail}, r.Ends xs → r.Ends (x :: xs)
  | .spot _, h => Spot.Ends.imp EndsInName.of_tail h
  | .link .., .inl ⟨hr, hp⟩ => .inl ⟨hr, hp.of_tail⟩
  | .link .., .inr ⟨hr, hp⟩ => .inr ⟨hr, fun he => (hp he).of_tail⟩

theorem trail_ends (t : FileTree) (through : Bool) : ∀ (here : Place) (ps : List String),
    (t.trail through here ps).Ends ps
  | here, [] => trivial
  | here, piece :: rest => by
    have hself : ∀ {name}, componentOf? piece = some (.name name) → rest = [] →
        EndsInName (piece :: rest) := fun hc hr => hr ▸ endsInName_concat hc []
    rw [FileTree.trail]
    split
    next name hc =>
      split
      · split
        · exact (trail_ends t through _ rest).of_tail
        · split
          · trivial
          · by_cases hr : rest = []
            · exact .inl ⟨hr, hself hc hr⟩
            · exact .inr ⟨hr, .of_tail⟩
        · split
          next hr => exact hself hc (by simpa using hr)
          next => trivial
        · split
          · cases rest with
            | nil => exact hself hc rfl
            | cons => trivial
          · trivial
      · trivial
    · exact (trail_ends t through _ rest).of_tail
    · exact (trail_ends t through _ rest).of_tail

theorem resolve_ends (t : FileTree) (through : Bool) : ∀ (limit : Nat) (here : Place)
    (ps : List String), (t.resolve through limit here ps).Ends ps
  | 0, here, ps => by
    have htrail := trail_ends t through here ps
    rw [FileTree.resolve]
    split
    next h => rw [h] at htrail; exact htrail
    next => trivial
  | limit + 1, here, ps => by
    have htrail := trail_ends t through here ps
    rw [FileTree.resolve]
    split
    next h => rw [h] at htrail; exact htrail
    next place target rest h =>
      rw [h] at htrail
      refine (resolve_ends t through limit _ (target.pieces ++ rest)).imp fun he => ?_
      rcases htrail with ⟨-, hp⟩ | ⟨hr, hp⟩
      · exact hp
      · obtain ⟨last, name, hlast, hn⟩ := he
        exact hp ⟨last, name, by rwa [List.getLast?_append_of_ne_nil _ hr] at hlast, hn⟩

theorem locate_ends (d : Disk) (through : Bool) (p : FilePath) :
    (d.locate through p).Ends p.pieces := by
  rw [Disk.locate]
  split
  · trivial
  · split
    · trivial
    · exact resolve_ends ..

theorem endsInName_of_isFile {d : Disk} {p : FilePath} (h : d.isFile p = true) :
    EndsInName p.pieces := by
  have hends := locate_ends d true p
  rw [Disk.isFile] at h
  split at h
  next hs => rw [hs] at hends; exact hends
  next => cases h

theorem endsInName_of_readText? {d : Disk} {p : FilePath} {s : String} (h : d.readText? p = some s) :
    EndsInName p.pieces := by
  have hends := locate_ends d true p
  obtain ⟨place, hs⟩ := Disk.exists_locate_of_readText? h
  rw [hs] at hends
  exact hends

theorem endsInName_of_write? {d e : Disk} {p : FilePath} {c : Content} (h : d.write? p c = some e) :
    EndsInName p.pieces := by
  have hends := locate_ends d true p
  rw [Disk.write?] at h
  split at h
  next hs => rw [hs] at hends; exact hends
  next hs => rw [hs] at hends; exact hends
  next => cases h

/-! ### Ways with the same components -/

/-- A trail as it is when what is left to be followed is written without idle pieces. -/
def Trail.activate : Trail → Trail
  | .spot s => .spot s
  | .link here target rest => .link here target (active rest)

theorem EndsActive.all_empty {ps : List String} (h : EndsActive ps) : ps.all (· = "") = false := by
  obtain ⟨last, hl, hi⟩ := h
  refine List.all_eq_false.2 ⟨last, List.mem_of_getLast? hl, fun h0 => ?_⟩
  rw [of_decide_eq_true h0] at hi; cases hi

theorem all_active {ps : List String} (h : IsWay ps) :
    (active ps).all (· = "") = ps.all (· = "") := by
  rcases h with rfl | h
  · rfl
  · rw [h.all_empty, h.active.all_empty]

theorem trail_active (t : FileTree) (through : Bool) : ∀ (here : Place) (ps : List String), IsWay ps →
    t.trail through here (active ps) = (t.trail through here ps).activate
  | here, [], _ => rfl
  | here, piece :: rest, h => by
    have ih := fun here => trail_active t through here rest h.tail
    have hrest := active_isEmpty h.tail
    by_cases hi : isIdle piece = true
    · rw [active, List.filter_cons, if_neg (by simp [hi])]
      have hc := componentOf?_of_isIdle hi
      rw [FileTree.trail, hc]
      exact ih here
    · rw [active, List.filter_cons, if_pos (by simp [hi])]
      change t.trail through here (piece :: active rest) = _
      rw [FileTree.trail, FileTree.trail]
      split
      next name hc =>
        split
        · split
          · exact ih _
          · rw [hrest]; split <;> rfl
          · rw [hrest]; rfl
          · rw [hrest, all_active h.tail]; split <;> rfl
        · rfl
      · exact ih _
      · exact ih _

theorem isWay_of_trail {t : FileTree} {through : Bool} : ∀ {here place : Place}
    {ps rest : List String} {target : FilePath}, IsWay ps →
    t.trail through here ps = .link place target rest → IsWay rest
  | here, _, [], _, _, _, ht => by cases ht
  | here, place, piece :: ps, rest, target, h, ht => by
    rw [FileTree.trail] at ht
    split at ht
    · split at ht
      · split at ht
        · exact isWay_of_trail h.tail ht
        · split at ht
          · cases ht
          · cases ht; exact h.tail
        · cases ht
        · cases ht
      · cases ht
    · exact isWay_of_trail h.tail ht
    · exact isWay_of_trail h.tail ht

theorem resolve_active (t : FileTree) (through : Bool) : ∀ (limit : Nat) (here : Place)
    {ps : List String}, IsWay ps →
    t.resolve through limit here (active ps) = t.resolve through limit here ps
  | 0, here, ps, h => by
    rw [FileTree.resolve, FileTree.resolve, trail_active t through here ps h]
    cases t.trail through here ps <;> rfl
  | limit + 1, here, ps, h => by
    rw [FileTree.resolve, FileTree.resolve, trail_active t through here ps h]
    cases ht : t.trail through here ps with
    | spot s => rfl
    | link place target rest =>
      simp only [Trail.activate]
      -- both ways go on as the one without idle pieces does
      rcases isWay_of_trail h ht with rfl | hr
      · rfl
      · rw [← resolve_active t through limit _ (.inr (hr.append target.pieces)),
          ← resolve_active t through limit _ (.inr (hr.active.append target.pieces)),
          active_append, active_append, active_active]

theorem resolve_congr {t : FileTree} {through : Bool} {limit : Nat} {here : Place}
    {ps qs : List String} (hp : IsWay ps) (hq : IsWay qs) (h : counted ps = counted qs) :
    t.resolve through limit here ps = t.resolve through limit here qs := by
  rw [← resolve_active t through limit here hp, ← resolve_active t through limit here hq,
    active_eq_map_text, active_eq_map_text, h]

/-- What a path leads to is decided by its components, as far as it can be followed at all. -/
theorem locate_congr_of_isWay {d : Disk} {through : Bool} {p q : FilePath}
    (h : p.components = q.components) (hp : IsWay p.pieces) (hq : IsWay q.pieces)
    (hpath : isPath p = isPath q) : d.locate through p = d.locate through q := by
  have hr : p.rooted = q.rooted := rooted_congr h
  have hres : ∀ here, d.tree.resolve through linkLimit here p.pieces =
      d.tree.resolve through linkLimit here q.pieces := fun here =>
    resolve_congr hp hq (counted_congr h)
  have hempty : p.pieces.isEmpty = q.pieces.isEmpty := by
    rw [← active_isEmpty hp, ← active_isEmpty hq, active_eq_map_text, active_eq_map_text,
      counted_congr h]
  rw [Disk.locate, Disk.locate, hempty, hpath, hr, hres]

theorem locate_congr {d : Disk} {through : Bool} {p q : FilePath} (h : p.components = q.components)
    (hp : EndsInName p.pieces) (hq : EndsInName q.pieces) (hpath : isPath p = isPath q) :
    d.locate through p = d.locate through q :=
  locate_congr_of_isWay h (.inr hp.endsActive) (.inr hq.endsActive) hpath

theorem isFile_congr {d : Disk} {p q : FilePath} (h : p.components = q.components)
    (hq : EndsInName q.pieces) (hpath : isPath q = true) (hf : d.isFile p = true) :
    d.isFile q = true := by
  have hp : EndsInName p.pieces := endsInName_of_isFile hf
  rwa [Disk.isFile, ← locate_congr h hp hq ((isPath_of_isFile hf).trans hpath.symm)]

end TypeGen.Store
