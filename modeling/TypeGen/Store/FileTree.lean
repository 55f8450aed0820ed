import TypeGen.Store.FilePath

/-!
File trees. A tree is its entries, each under the place where it is, in the order of the places:
a directory stands ahead of all that is in it, and entries of one directory go by their names. Every
entry but the root is in a directory; since the order is fixed, trees that answer alike are equal.
-/

namespace TypeGen.Store

/-- The names that lead from the root to an entry. -/
abbrev Place := List String

inductive Content where
  | text (s : String)
  /-- Bytes that are no text. -/
  | binary
  deriving DecidableEq, Repr

inductive Entry where
  | directory
  | file (content : Content)
  /-- A symbolic link. -/
  | link (target : FilePath)
  deriving DecidableEq, Repr

/-! ### Sorted entries -/

abbrev Entries := List (Place × Entry)

def IsSorted (es : Entries) : Prop := es.Pairwise (·.1 < ·.1)

/-- Puts an entry in its place, instead of one that is there. -/
def putEntry (place : Place) (e : Entry) : Entries → Entries
  | [] => [(place, e)]
  | x :: xs =>
    if place = x.1 then (place, e) :: xs
    else if place < x.1 then (place, e) :: x :: xs
    else x :: putEntry place e xs

def dropEntry (place : Place) (es : Entries) : Entries := es.filter (·.1 ≠ place)

theorem lookup_cons_eq_ite (q : Place) (x : Place × Entry) (xs : Entries) :
    List.lookup q (x :: xs) = if q = x.1 then some x.2 else xs.lookup q := by
  obtain ⟨p, e⟩ := x
  by_cases h : q = p
  · simp [h]
  · have h' : (q == p) = false := by simp [h]
    rw [List.lookup_cons, h', if_neg h]

theorem lookup_putEntry (place q : Place) (e : Entry) (es : Entries) :
    (putEntry place e es).lookup q = if q = place then some e else es.lookup q := by
  induction es with
  | nil => simp [putEntry, lookup_cons_eq_ite]
  | cons x xs ih =>
    simp only [putEntry]
    split
    next h =>
      rw [lookup_cons_eq_ite, lookup_cons_eq_ite, ← h]
      split <;> rfl
    next h =>
      split
      · rw [lookup_cons_eq_ite]
      · rw [lookup_cons_eq_ite, lookup_cons_eq_ite, ih]
        split
        next hq => rw [if_neg (hq ▸ Ne.symm h)]
        next => rfl

theorem lookup_dropEntry (place q : Place) (es : Entries) :
    (dropEntry place es).lookup q = if q = place then none else es.lookup q := by
  induction es with
  | nil => simp [dropEntry]
  | cons x xs ih =>
    simp only [dropEntry, List.filter_cons] at ih ⊢
    rw [lookup_cons_eq_ite]
    by_cases hx : x.1 = place
    · simp only [hx, ne_eq, not_true_eq_false, decide_false, Bool.false_eq_true, if_false] at ih ⊢
      rw [ih]
      split <;> rfl
    · simp only [hx, ne_eq, not_false_eq_true, decide_true, if_true] at ih ⊢
      rw [lookup_cons_eq_ite, ih]
      split
      next hq => rw [if_neg (hq ▸ hx)]
      next => rfl

theorem mem_putEntry {place : Place} {e : Entry} {es : Entries} {x : Place × Entry}
    (h : x ∈ putEntry place e es) : x = (place, e) ∨ x ∈ es := by
  induction es with
  | nil => simpa [putEntry] using h
  | cons y ys ih =>
    simp only [putEntry] at h
    split at h
    · rcases List.mem_cons.1 h with h | h
      · exact .inl h
      · exact .inr (List.mem_cons_of_mem _ h)
    · split at h
      · exact List.mem_cons.1 h
      · rcases List.mem_cons.1 h with h | h
        · exact .inr (h ▸ List.mem_cons_self ..)
        · exact (ih h).imp_right (List.mem_cons_of_mem _)

theorem isSorted_putEntry (place : Place) (e : Entry) {es : Entries} (h : IsSorted es) :
    IsSorted (putEntry place e es) := by
  induction es with
  | nil => simp [putEntry, IsSorted]
  | cons x xs ih =>
    obtain ⟨hx, hxs⟩ := List.pairwise_cons.1 h
    simp only [putEntry]
    split
    next hp => exact List.pairwise_cons.2 ⟨fun y hy => hp ▸ hx y hy, hxs⟩
    next hp =>
      split
      next hlt =>
        refine List.pairwise_cons.2 ⟨fun y hy => ?_, h⟩
        rcases List.mem_cons.1 hy with rfl | hy
        · exact hlt
        · exact List.lt_trans hlt (hx y hy)
      next hlt =>
        refine List.pairwise_cons.2 ⟨fun y hy => ?_, ih hxs⟩
        rcases mem_putEntry hy with rfl | hy
        · rcases Std.lt_trichotomy place x.1 with h1 | h1 | h1
          · exact absurd h1 hlt
          · exact absurd h1 hp
          · exact h1
        · exact hx y hy

theorem isSorted_dropEntry (place : Place) {es : Entries} (h : IsSorted es) :
    IsSorted (dropEntry place es) := List.Pairwise.filter _ h

/-! ### Trees -/

structure FileTree where
  entries : Entries
  sorted : IsSorted entries
  /-- The root is there. -/
  root : entries.lookup [] = some .directory
  /-- What has an entry in it is a directory. -/
  closed : ∀ place name,
    (entries.lookup (place ++ [name])).isSome → entries.lookup place = some .directory

namespace FileTree

/-- The tree with nothing in its root. -/
def empty : FileTree where
  entries := [([], .directory)]
  sorted := List.pairwise_singleton ..
  root := rfl
  closed := fun place name h => by simp [lookup_cons_eq_ite] at h

/-- The entry at a place. -/
def get? (t : FileTree) (place : Place) : Option Entry := t.entries.lookup place

/-- Whether an entry may be put at a place: it is in a directory, and no directory is there. -/
def isOpen (t : FileTree) (place : Place) : Bool :=
  place ≠ [] && t.get? place.dropLast = some .directory && t.get? place ≠ some .directory

/-- Puts an entry at a place, where one may be put. -/
def put? (t : FileTree) (place : Place) (e : Entry) : Option FileTree :=
  if h : t.isOpen place then
    some {
      entries := putEntry place e t.entries
      sorted := isSorted_putEntry place e t.sorted
      root := by
        have h0 : [] ≠ place := fun h0 => by simp [isOpen, ← h0] at h
        rw [lookup_putEntry, if_neg h0, t.root]
      closed := fun q name hq => by
        simp only [isOpen, Bool.and_eq_true, decide_eq_true_eq] at h
        have hne : q ≠ place := by
          intro hqp
          rw [lookup_putEntry, if_neg (by simp [← hqp])] at hq
          exact h.2 (hqp ▸ t.closed q name hq)
        rw [lookup_putEntry, if_neg hne]
        rw [lookup_putEntry] at hq
        by_cases hqn : q ++ [name] = place
        · have := h.1.2
          rwa [← hqn, List.dropLast_concat] at this
        · rw [if_neg hqn] at hq
          exact t.closed q name hq }
  else none

/-- Takes away what is at a place; directories and places with nothing there stay. -/
def remove? (t : FileTree) (place : Place) : Option FileTree :=
  if h : (t.get? place).isSome ∧ t.get? place ≠ some .directory then
    some {
      entries := dropEntry place t.entries
      sorted := isSorted_dropEntry place t.sorted
      root := by
        have h0 : [] ≠ place := fun h0 => h.2 (h0 ▸ t.root)
        rw [lookup_dropEntry, if_neg h0, t.root]
      closed := fun q name hq => by
        rw [lookup_dropEntry] at hq
        split at hq
        · simp at hq
        · have hd := t.closed q name hq
          have hne : q ≠ place := fun hqp => h.2 (hqp ▸ hd)
          rw [lookup_dropEntry, if_neg hne, hd] }
  else none

theorem get?_of_put? {t u : FileTree} {place : Place} {e : Entry} (h : t.put? place e = some u)
    (q : Place) : u.get? q = if q = place then some e else t.get? q := by
  simp only [put?] at h
  split at h
  · cases h
    exact lookup_putEntry ..
  · cases h

theorem get?_of_remove? {t u : FileTree} {place : Place} (h : t.remove? place = some u)
    (q : Place) : u.get? q = if q = place then none else t.get? q := by
  simp only [remove?] at h
  split at h
  · cases h
    exact lookup_dropEntry ..
  · cases h

end FileTree

end TypeGen.Store
