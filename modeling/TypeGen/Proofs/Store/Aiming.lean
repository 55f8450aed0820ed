import TypeGen.Proofs.Store.Places

/-!
Where paths aim. Without links a path can only come to the place that its components spell out, so
paths that spell out different places never lead to the same file.
-/

namespace TypeGen.Store

open FilePath

/-- The place that a component leads to. -/
def Component.follow (here : Place) : Component → Place
  | .root => []
  | .current => here
  | .parent => here.dropLast
  | .name s => here ++ [s]

/-- The place that the components of a path spell out. -/
def FilePath.aim (home : Place) (p : FilePath) : Place := p.components.foldl Component.follow home

theorem foldl_follow_names (here : Place) : ∀ names : List String,
    (names.map Component.name).foldl Component.follow here = here ++ names
  | [] => by simp
  | name :: names => by
    rw [List.map_cons, List.foldl_cons, foldl_follow_names]; simp [Component.follow]

theorem FileTree.Reaches.foldl_follow {t : FileTree} {here dir : Place} {cs : List Component}
    (h : t.Reaches here cs dir) : cs.foldl Component.follow here = dir := by
  induction h with
  | here => rfl
  | name _ _ _ ih => exact ih
  | parent _ ih => exact ih

theorem FileTree.LeadsToFile.foldl_follow {t : FileTree} {here place : Place} {cs : List Component}
    (h : t.LeadsToFile here cs place) : cs.foldl Component.follow here = place := by
  cases h with
  | last hr _ _ => rw [List.foldl_append, hr.foldl_follow]; rfl

/-- A path to a file, or to the place for one, leads where it aims. -/
theorem aim_of_filePlace? {d : Disk} (hl : d.tree.NoLinks) {p : FilePath} {place : Place}
    (h : d.filePlace? p = some place) : p.aim d.home = place := by
  obtain ⟨-, -, hway⟩ := (Disk.filePlace?_eq_some hl).1 h
  rw [← hway.foldl_follow, FilePath.aim, components_eq, List.foldl_append, Disk.startOf]
  congr 1
  cases hr : p.rooted with
  | true => simp [head?, hr, Component.follow]
  | false =>
    rw [head?, hr]
    simp only [Bool.false_eq_true, if_false]
    split <;> rfl

/-- The name at the end of a path is in the directory that the other components spell out. -/
theorem aim_of_fileName? {p : FilePath} {name : String} (h : p.fileName? = some name)
    (home : Place) : p.aim home = p.components.dropLast.foldl Component.follow home ++ [name] := by
  have hc := components_of_fileName? h
  rw [FilePath.aim, hc, List.foldl_append, List.dropLast_concat]; rfl

/-- Paths that end in different names aim at different places. -/
theorem aim_ne_of_fileName? {home : Place} {p q : FilePath} {name name' : String}
    (hp : p.fileName? = some name) (hq : q.fileName? = some name') (hne : name ≠ name') :
    p.aim home ≠ q.aim home := by
  rw [aim_of_fileName? hp, aim_of_fileName? hq]
  intro h
  exact hne (List.singleton_inj.1 (List.append_inj' h rfl).2)

end TypeGen.Store
