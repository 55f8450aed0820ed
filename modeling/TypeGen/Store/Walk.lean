import TypeGen.Store.Disk

/-!
Walks through a directory. A walk takes what is in a directory by its names, and goes through a
directory among it before it takes the next. It enters nothing that is to be skipped, and follows no
link but the one that it may start at.
-/

namespace TypeGen.Store

/-- Entries of one directory, by their names. -/
abbrev Listing := List (String × Entry)

/-- Puts an entry ahead of those whose names do not come before its own. -/
def insertByName (x : String × Entry) : Listing → Listing
  | [] => [x]
  | y :: ys => if x.1 ≤ y.1 then x :: y :: ys else y :: insertByName x ys

def sortByName (xs : Listing) : Listing := xs.foldr insertByName []

theorem mem_insertByName {x y : String × Entry} {ys : Listing} :
    x ∈ insertByName y ys ↔ x = y ∨ x ∈ ys := by
  induction ys with
  | nil => simp [insertByName]
  | cons z zs ih =>
    rw [insertByName]
    split
    · exact List.mem_cons
    · rw [List.mem_cons, ih, List.mem_cons]
      exact or_left_comm

theorem mem_sortByName {x : String × Entry} {xs : Listing} : x ∈ sortByName xs ↔ x ∈ xs := by
  induction xs with
  | nil => rfl
  | cons y ys ih => rw [sortByName, List.foldr_cons, mem_insertByName, ← sortByName, ih, List.mem_cons]

/-- An entry by its name, if it is in a directory and not further inside. -/
def entryIn? (place : Place) (e : Place × Entry) : Option (String × Entry) :=
  if e.1.dropLast = place then e.1.getLast?.map (·, e.2) else none

theorem entryIn?_eq_some {place : Place} {e : Place × Entry} {x : String × Entry} :
    entryIn? place e = some x ↔ e = (place ++ [x.1], x.2) := by
  obtain ⟨q, entry⟩ := e
  rw [entryIn?]
  constructor
  · intro h
    split at h
    next hplace =>
      obtain ⟨last, hlast, rfl⟩ := Option.map_eq_some_iff.1 h
      obtain ⟨above, rfl⟩ := List.getLast?_eq_some_iff.1 hlast
      rw [← hplace, List.dropLast_concat]
    · cases h
  · rintro ⟨⟩
    simp

namespace FileTree

/-- What is in a directory, by its names. -/
def inside (t : FileTree) (place : Place) : Listing :=
  sortByName (t.entries.filterMap (entryIn? place))

theorem mem_inside_iff {t : FileTree} {place : Place} {x : String × Entry} :
    x ∈ t.inside place ↔ (place ++ [x.1], x.2) ∈ t.entries := by
  rw [inside, mem_sortByName, List.mem_filterMap]
  simp only [entryIn?_eq_some, exists_eq_right]

/-- How many names lead to an entry, at most. -/
def depth (t : FileTree) : Nat := (t.entries.map (·.1.length)).max?.getD 0

theorem depth_sub_lt {t : FileTree} {place : Place} {x : String × Entry} (h : x ∈ t.inside place) :
    t.depth - (place ++ [x.1]).length < t.depth - place.length := by
  have hle : (place ++ [x.1]).length ≤ t.depth :=
    List.le_max?_getD_of_mem (List.mem_map_of_mem (mem_inside_iff.1 h))
  rw [List.length_append, List.length_singleton] at hle ⊢
  omega

end FileTree

namespace Disk

/-- The files of a walk through a directory, which `p` leads to. What is in a directory is seen where
its path can be followed. -/
def filesBelow (d : Disk) (skip : FilePath → Bool) (p : FilePath) (top : Place) : List FilePath :=
  if isPath p then
    (d.tree.inside top).attach.flatMap fun ⟨(name, e), _⟩ =>
      if skip (p.child name) then []
      else match e with
        | .directory => d.filesBelow skip (p.child name) (top ++ [name])
        | .file _ => [p.child name]
        | .link _ => []
  else []
  termination_by d.tree.depth - top.length
  decreasing_by exact FileTree.depth_sub_lt ‹_›

/-- The files that a walk from `p` comes to: one for a file, all inside of a directory. -/
def files (d : Disk) (skip : FilePath → Bool) (p : FilePath) : List FilePath :=
  match d.locate false p with
  | .found _ (.file _) => if skip p then [] else [p]
  | .found top .directory => if skip p then [] else d.filesBelow skip p top
  | .found _ (.link _) =>
    match d.locate true p with
    | .found top .directory => if skip p then [] else d.filesBelow skip p top
    | _ => []
  | _ => []

end Disk

end TypeGen.Store
