import TypeGen.Proofs.Layout.Outputs

/-!
Which specs share outputs. The header of a spec tells its directory and its stem, but not its kind; a
source tells the stem, and the directory up to which of the two sides of a library it is on.
-/

namespace TypeGen.Project

open TypeGen.Spec TypeGen.Store TypeGen.Store.FilePath TypeGen.Text

/-- The name of a spec without the ending that tells its kind. -/
def specStem? (p : FilePath) : Option String := do (← kindOf? p).stem? (← p.fileName?)

/-- Specs with one stem in one directory. -/
def Twins (p q : FilePath) : Prop :=
  p.components.dropLast = q.components.dropLast ∧ specStem? p = specStem? q

instance (p q : FilePath) : Decidable (Twins p q) := inferInstanceAs (Decidable (_ ∧ _))

/-- A component as it is on the side of the sources. -/
def sourceSide (c : Component) : Component :=
  if c = .name includeDirectory then .name sourceDirectory else c

/-- Specs with one stem in directories that are the same once all headers are kept with sources. -/
def SourceTwins (p q : FilePath) : Prop :=
  p.components.dropLast.map sourceSide = q.components.dropLast.map sourceSide ∧
    specStem? p = specStem? q

instance (p q : FilePath) : Decidable (SourceTwins p q) := inferInstanceAs (Decidable (_ ∧ _))

theorem Twins.sourceTwins {p q : FilePath} (h : Twins p q) : SourceTwins p q :=
  ⟨congrArg _ h.1, h.2⟩

theorem sourceSide_of_dot {name : String} (h : '.' ∈ name.toList) :
    sourceSide (.name name) = .name name :=
  if_neg fun h0 => Layout.ne_side .headers h (Component.name.inj h0)

namespace Layout

/-- What follows the stem in the first piece of a header's name. -/
def headerMark (l : Layout) : String :=
  generatedMark ++ String.ofList ((splitAt '/' l.config.headerExtension.toList).headD [])

/-- The components that follow the first piece of a header's name. -/
def headerTail (l : Layout) : List Component :=
  counted ((splitAt '/' l.config.headerExtension.toList).tail.map String.ofList)

theorem counted_header (l : Layout) {stem : String} (hs : '/' ∉ stem.toList) :
    counted (ofString (stem ++ l.headerSuffix)).pieces =
      .name (stem ++ l.headerMark) :: l.headerTail := by
  cases he : splitAt '/' l.config.headerExtension.toList with
  | nil => exact absurd he (splitAt_ne_nil _ _)
  | cons first rest =>
    have hmark : '/' ∉ generatedMark.toList := by decide
    have hs' : '/' ∉ (stem ++ generatedMark).toList := by
      rw [String.toList_append, List.mem_append, not_or]; exact ⟨hs, hmark⟩
    have hlen : (stem ++ generatedMark).length = stem.length + 4 := String.length_append ..
    have hne : stem ++ generatedMark ≠ "" := fun h0 => by rw [h0] at hlen; cases hlen
    have hfirst : String.ofList ((stem ++ generatedMark).toList ++ first) = stem ++ l.headerMark := by
      rw [headerMark, he]
      exact String.toList_inj.1 (by simp [String.toList_append])
    have hplain : IsPlain (stem ++ l.headerMark) := by
      have hslash : '/' ∉ first := notMem_of_mem_splitAt (by rw [he]; exact List.mem_cons_self ..)
      rw [← hfirst]
      refine isPlain_of_length ?_ ?_
      · rw [String.toList_ofList, List.mem_append, not_or]; exact ⟨hs', hslash⟩
      · rw [← String.length_toList, String.toList_ofList, List.length_append, String.length_toList]
        omega
    rw [headerSuffix, ← String.append_assoc, ofString_append_eq hs' hne he, hfirst, headerTail, he]
    simp [counted, componentOf?_of_isPlain hplain]

/-- Both sides of a library are the same side to sources. -/
theorem map_mirrored (l : Layout) (d : Disk) (header : FilePath) :
    (l.mirrored d header).map sourceSide = header.components.map sourceSide := by
  rw [mirrored]
  split
  next lib rel h =>
    obtain ⟨-, -, side, hside, hc⟩ := inLibrary?_eq_some h
    have hsides : sourceSide (.name side) = sourceSide (.name sourceDirectory) := by
      cases hside <;> decide
    rw [hc, List.map_append, List.map_append, List.map_cons, List.map_cons, hsides]
  next => rfl

namespace IsHeaderOf

variable {l : Layout} {stem stem' : String} {k k' : Kind} {p q header header' : FilePath}

theorem specStem? (h : IsHeaderOf l stem k p header) : specStem? p = some stem := by
  have hk : kindOf? p = some k := kindOf?_eq_some.2 ⟨stem, h.stem_ne, h.specName⟩
  have hcut : k.stem? (stem ++ k.suffix) = some stem := cutEnding?_eq_some.2 rfl
  simp only [Project.specStem?, hk, h.specName, hcut, Option.bind_eq_bind, Option.bind_some]

theorem components_eq (h : IsHeaderOf l stem k p header) : header.components =
    p.components.dropLast ++ .name (stem ++ l.headerMark) :: l.headerTail := by
  rw [h.components, l.counted_header h.noSlash]

theorem headerTail_ne (h : IsHeaderOf l stem k p header) (hl : ¬ l.IsFlat) : l.headerTail ≠ [] := by
  intro h0
  have hlt := h.length_lt hl
  rw [h.components_eq, h0, components_of_fileName? h.specName] at hlt
  simp at hlt

/-- Headers are the same for specs of one directory and one stem, and for no others. -/
theorem components_iff (h : IsHeaderOf l stem k p header) (h' : IsHeaderOf l stem' k' q header') :
    header.components = header'.components ↔ Twins p q := by
  rw [Twins, h.specStem?, h'.specStem?, h.components_eq, h'.components_eq]
  constructor
  · intro heq
    obtain ⟨hdir, hname⟩ := List.append_inj' heq (by simp)
    have hstem := Component.name.inj (List.cons.inj hname).1
    exact ⟨hdir, congrArg some ((String.append_left_inj _).1 hstem)⟩
  · rintro ⟨hdir, hstem⟩
    rw [hdir, Option.some.inj hstem]

/-- The components of a source, once all headers are kept with sources. -/
theorem map_sourcePath (h : IsHeaderOf l stem k p header) (d : Disk) :
    (l.sourcePath d header).components.map sourceSide = (header.components.map sourceSide).dropLast ++
      [.name ((l.generatedStem? header).getD "" ++ sourceSuffix)] := by
  obtain ⟨name, hn, hs⟩ := h.exists_fileName?
  rw [components_sourcePath hn hs, List.map_append, List.map_dropLast, l.map_mirrored]
  rw [List.map_singleton, sourceSide_of_dot (dot_mem_source _)]

/-- Sources are the same only for specs of one stem in directories that go by one name. -/
theorem sourceTwins (h : IsHeaderOf l stem k p header) (h' : IsHeaderOf l stem' k' q header')
    {d e : Disk} (heq : (l.sourcePath d header).components = (l.sourcePath e header').components) :
    SourceTwins p q := by
  have hmap := congrArg (List.map sourceSide) heq
  rw [h.map_sourcePath, h'.map_sourcePath] at hmap
  obtain ⟨hinit, hlast⟩ := List.append_inj' hmap rfl
  rw [SourceTwins, h.specStem?, h'.specStem?]
  by_cases hl : l.IsFlat
  · rw [h.components_of_flat hl, h'.components_of_flat hl, List.map_append, List.map_append,
      List.map_singleton, List.map_singleton, List.dropLast_concat, List.dropLast_concat] at hinit
    rw [h.generatedStem? hl, h'.generatedStem? hl] at hlast
    have hstem := Component.name.inj (List.cons.inj hlast).1
    exact ⟨hinit, congrArg some ((String.append_left_inj _).1 hstem)⟩
  · have hdot : ∀ s, '.' ∈ (s ++ l.headerMark).toList := fun s => by
      simp [headerMark, generatedMark, String.toList_append]
    have htail : l.headerTail.map sourceSide ≠ [] := by simpa using h.headerTail_ne hl
    rw [h.components_eq, h'.components_eq, List.map_append, List.map_append, List.map_cons,
      List.map_cons, sourceSide_of_dot (hdot _), sourceSide_of_dot (hdot _),
      List.dropLast_append_of_ne_nil (by simp), List.dropLast_append_of_ne_nil (by simp),
      List.dropLast_cons_of_ne_nil htail, List.dropLast_cons_of_ne_nil htail] at hinit
    obtain ⟨hdir, hname⟩ := List.append_inj' hinit (by simp)
    have hstem := Component.name.inj (List.cons.inj hname).1
    exact ⟨hdir, congrArg some ((String.append_left_inj _).1 hstem)⟩

end IsHeaderOf

end Layout

end TypeGen.Project
