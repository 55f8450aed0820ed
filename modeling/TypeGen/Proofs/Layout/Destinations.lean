import TypeGen.Proofs.Layout.Twins
import TypeGen.Proofs.Store.Aiming
import TypeGen.Proofs.Store.Walking

/-!
Where outputs go. For specs below the root of a project all outputs are below it as well, so outputs
with different components go to different places.
-/

namespace TypeGen.Store.FilePath

/-- The components lead from a path on by names only. -/
def LeadsTo (p : FilePath) (cs : List Component) : Prop :=
  ∃ names : List String, cs = p.components ++ names.map .name

theorem LeadsTo.aim {p q : FilePath} {names : List String} (home : Place)
    (h : q.components = p.components ++ names.map .name) : q.aim home = p.aim home ++ names := by
  rw [FilePath.aim, h, List.foldl_append, foldl_follow_names]; rfl

/-- Paths that lead on by names only aim at different places unless they are the same. -/
theorem LeadsTo.components_eq {p q q' : FilePath} {home : Place} (h : p.LeadsTo q.components)
    (h' : p.LeadsTo q'.components) (haim : q.aim home = q'.aim home) :
    q.components = q'.components := by
  obtain ⟨names, hnames⟩ := h
  obtain ⟨names', hnames'⟩ := h'
  rw [aim home hnames, aim home hnames'] at haim
  rw [hnames, hnames', List.append_cancel_left haim]

/-- Paths below one path are in the same directory if the places that they aim at are. -/
theorem LeadsTo.dropLast_eq {p q q' : FilePath} {home init : Place} {name name' : String}
    (h : p.LeadsTo q.components) (h' : p.LeadsTo q'.components)
    (haim : q.aim home = init ++ [name]) (haim' : q'.aim home = init ++ [name']) :
    q.components.dropLast = q'.components.dropLast := by
  obtain ⟨names, hnames⟩ := h
  obtain ⟨names', hnames'⟩ := h'
  rw [aim home hnames] at haim
  rw [aim home hnames'] at haim'
  rw [hnames, hnames']
  have hlen : names.length = names'.length := by
    have hlen := congrArg List.length haim
    have hlen' := congrArg List.length haim'
    simp only [List.length_append, List.length_singleton] at hlen hlen'
    omega
  by_cases hnil : names = []
  · rw [hnil, List.length_nil, eq_comm, List.length_eq_zero_iff] at hlen
    rw [hnil, hlen]
  · have hnil' : names' ≠ [] := fun h0 => hnil (by simpa [h0] using hlen)
    have hinit := congrArg List.dropLast haim
    have hinit' := congrArg List.dropLast haim'
    rw [List.dropLast_concat, List.dropLast_append_of_ne_nil hnil] at hinit
    rw [List.dropLast_concat, List.dropLast_append_of_ne_nil hnil'] at hinit'
    rw [List.dropLast_append_of_ne_nil (by simpa), List.dropLast_append_of_ne_nil (by simpa),
      ← List.map_dropLast, ← List.map_dropLast,
      List.append_cancel_left (hinit.trans hinit'.symm)]

end TypeGen.Store.FilePath

namespace TypeGen.Project

open TypeGen.Spec TypeGen.Store TypeGen.Store.FilePath TypeGen.Text

namespace Layout

/-- Headers do not climb out of the directories that their names lead to. -/
def StaysInside (l : Layout) : Prop := .parent ∉ l.headerTail

theorem StaysInside.exists_names {l : Layout} (h : l.StaysInside) :
    ∃ names : List String, l.headerTail = names.map .name := exists_names_of_counted h

theorem root_prefix_library? {l : Layout} {d : Disk} {p lib : FilePath}
    (h : l.library? d p = some lib) : l.root.components <+: lib.components := by
  rw [library?] at h
  have := List.mem_takeWhile_imp (List.mem_of_find?_eq_some h)
  exact List.isPrefixOf_iff_prefix.1 this

/-- A library is below the root, so nothing but names is seen from there on. -/
theorem leadsTo_mirrored {l : Layout} {header : FilePath} (h : l.root.LeadsTo header.components)
    (d : Disk) : l.root.LeadsTo (l.mirrored d header) := by
  obtain ⟨names, hnames⟩ := h
  rw [mirrored]
  split
  next lib rel hlib =>
    obtain ⟨hlib, -, side, -, hc⟩ := inLibrary?_eq_some hlib
    obtain ⟨rest, hrest⟩ := root_prefix_library? hlib
    rw [hnames, ← hrest, List.append_assoc] at hc
    have hsplit := List.append_cancel_left hc
    obtain ⟨as, bs, -, has, hbs⟩ := List.map_eq_append_iff.1 hsplit
    obtain ⟨b, cs, -, -, hcs⟩ := List.map_eq_cons_iff.1 hbs
    refine ⟨as ++ sourceDirectory :: cs, ?_⟩
    rw [← hrest, ← has, ← hcs]; simp
  next => exact ⟨names, hnames⟩

namespace IsHeaderOf

variable {l : Layout} {stem stem' : String} {k k' : Kind} {p q header header' : FilePath}

theorem leadsTo_header (h : IsHeaderOf l stem k p header) (hin : l.StaysInside)
    (hp : l.root.IsBelow p) : l.root.LeadsTo header.components := by
  obtain ⟨names, hne, -, hnames⟩ := hp
  obtain ⟨tail, htail⟩ := hin.exists_names
  refine ⟨names.dropLast ++ (stem ++ l.headerMark) :: tail, ?_⟩
  rw [h.components_eq, hnames, htail, List.dropLast_append_of_ne_nil (by simpa using hne)]
  simp [List.map_dropLast]

theorem leadsTo_source (h : IsHeaderOf l stem k p header) (hin : l.StaysInside)
    (hp : l.root.IsBelow p) (d : Disk) : l.root.LeadsTo (l.sourcePath d header).components := by
  obtain ⟨name, hn, hs⟩ := h.exists_fileName?
  obtain ⟨names, hnames⟩ := leadsTo_mirrored (h.leadsTo_header hin hp) d
  have hne : names ≠ [] := by
    rintro rfl
    have hlen := congrArg List.length hnames
    obtain ⟨specNames, hne, -, hspec⟩ := hp
    rw [length_mirrored, h.components_eq, hspec,
      List.dropLast_append_of_ne_nil (by simpa using hne)] at hlen
    simp at hlen
  refine ⟨names.dropLast ++ [(l.generatedStem? header).getD "" ++ sourceSuffix], ?_⟩
  rw [components_sourcePath hn hs, hnames, List.dropLast_append_of_ne_nil (by simpa using hne)]
  simp [List.map_dropLast]

/-- A header is never where the source of a spec goes. -/
theorem aim_header_ne_source (h : IsHeaderOf l stem k p header) (hl : l.NamesApart)
    (h' : IsHeaderOf l stem' k' q header') (home : Place) (d : Disk) :
    header.aim home ≠ (l.sourcePath d header').aim home := by
  obtain ⟨name, hn, -⟩ := h.exists_fileName?
  obtain ⟨s, -, hs⟩ := h'.fileName?_source d
  exact aim_ne_of_fileName? hn hs fun h0 => h.fileName?_ne hl s (h0 ▸ hn)

end IsHeaderOf

/-! ### What is spared -/

/-- Nothing that may be generated for a spec goes to where a path aims. -/
def Spares (l : Layout) (home : Place) (spec p : FilePath) : Prop :=
  ∀ header, l.headerPath? spec = some header → EndsInName header.pieces →
    p.aim home ≠ header.aim home ∧ ∀ d, p.aim home ≠ (l.sourcePath d header).aim home

section

variable {l : Layout} {stem : String} {k : Kind} {p q header : FilePath}

/-- Nothing that is named otherwise than a spec goes to where one is. -/
theorem aim_ne_of_kindOf? {name : String} (hq : kindOf? q = some k) (hp : kindOf? p = none)
    (hn : p.fileName? = some name) (home : Place) : q.aim home ≠ p.aim home := by
  obtain ⟨stem, -, hstem⟩ := kindOf?_eq_some.1 hq
  refine aim_ne_of_fileName? hstem hn fun h0 => ?_
  have hsame : kindOf? p = kindOf? q := by rw [kindOf?, kindOf?, hn, hstem, h0]
  rw [hp, hq] at hsame; cases hsame

theorem aim_spec_ne_source {stem' : String} {k' : Kind} (hq : kindOf? q = some k)
    (h : IsHeaderOf l stem' k' p header) (home : Place) (d : Disk) :
    q.aim home ≠ (l.sourcePath d header).aim home := by
  obtain ⟨_, -, hn⟩ := h.fileName?_source d
  exact aim_ne_of_kindOf? hq (kindOf?_of_source hn) hn home

/-- No spec is in the way of what is generated for a spec. -/
theorem spares_spec (hk : l.KeepsSpecs) (hw : p.IsWritten) (hq : kindOf? q = some k) (home : Place) :
    l.Spares home p q := by
  intro header hheader hends
  obtain ⟨_, _, h⟩ := exists_isHeaderOf hw hheader hends
  obtain ⟨name, hn, -⟩ := h.exists_fileName?
  exact ⟨aim_ne_of_kindOf? hq (h.kindOf?_header hk) hn home, aim_spec_ne_source hq h home⟩

/-- A spec is spared that is not itself the header of the other. -/
theorem spares_of_not_same (hl : l.IsFlat) (hw : p.IsWritten) (hp : l.root.LeadsTo p.components)
    (hq : l.root.LeadsTo q.components) (hk : kindOf? q = some k)
    (hne : ∀ header ∈ l.headerPath? p, header.same q = false) (home : Place) :
    l.Spares home p q := by
  intro header hheader hends
  obtain ⟨stem, _, h⟩ := exists_isHeaderOf hw hheader hends
  refine ⟨fun haim => of_decide_eq_false (hne header hheader) ?_, aim_spec_ne_source hk h home⟩
  obtain ⟨stem', -, hn⟩ := kindOf?_eq_some.1 hk
  have hheader : header.fileName? = some (stem ++ l.headerSuffix) := by
    rw [fileName?_eq_some, h.components_of_flat hl, List.getLast?_concat]
  rw [aim_of_fileName? hn, aim_of_fileName? hheader, h.components_of_flat hl,
    List.dropLast_concat] at haim
  obtain ⟨hinit, hname⟩ := List.append_inj' haim rfl
  have hdir := LeadsTo.dropLast_eq hq hp (aim_of_fileName? hn home)
    (hinit ▸ aim_of_fileName? h.specName home)
  rw [h.components_of_flat hl, ← hdir, ← List.singleton_inj.1 hname]
  exact (components_of_fileName? hn).symm

variable (h : IsHeaderOf l stem k p header) (hl : l.NamesApart) (hin : l.StaysInside)
  (hp : l.root.IsBelow p) (hq : l.root.IsBelow q) (hw : q.IsWritten) (home : Place)

include h hl hin hp hq hw

/-- Only a twin of the spec has its header. -/
theorem spares_header (hne : ¬ Twins p q) : l.Spares home q header := by
  intro header' hheader' hends
  obtain ⟨_, _, h'⟩ := exists_isHeaderOf hw hheader' hends
  exact ⟨fun haim => hne ((h.components_iff h').1
    ((h.leadsTo_header hin hp).components_eq (h'.leadsTo_header hin hq) haim)),
    h.aim_header_ne_source hl h' home⟩

/-- Only a twin of the spec, or one on the other side of a library, has its source. -/
theorem spares_source (hne : ¬ SourceTwins p q) (d : Disk) :
    l.Spares home q (l.sourcePath d header) := by
  intro header' hheader' hends
  obtain ⟨_, _, h'⟩ := exists_isHeaderOf hw hheader' hends
  exact ⟨(h'.aim_header_ne_source hl h home d).symm, fun e haim => hne (h.sourceTwins h'
    ((h.leadsTo_source hin hp d).components_eq (h'.leadsTo_source hin hq e) haim))⟩

end

end Layout

end TypeGen.Project
