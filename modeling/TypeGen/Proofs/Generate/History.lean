import TypeGen.Proofs.Generate.Keeping

/-!
Histories of a project: generations, and edits of its specs between them. A file with a name that no
spec can have was there at the start, or its text was given to it by a spec of the history.
-/

namespace TypeGen.Project

open TypeGen.Spec TypeGen.Store

/-! ### Edits of specs -/

/-- A place with a name that a spec can have. -/
def IsSpecPlace (place : Place) : Prop :=
  ∃ name, place.getLast? = some name ∧ (Kind.ofFileName? name).isSome = true

/-- What a user may do between two runs: change, add and take away specs, and take away anything
else. Links are not made, and no other file gets a new text. -/
structure IsEdit (d d' : Disk) : Prop where
  noLinks : d.tree.NoLinks → d'.tree.NoLinks
  files : ∀ {place c}, ¬ IsSpecPlace place → d'.tree.get? place = some (.file c) →
    d.tree.get? place = some (.file c)

theorem isEdit_save {d : Disk} (hl : d.tree.NoLinks) {spec : FilePath} {k : Kind}
    (hk : kindOf? spec = some k) (text : String) : IsEdit d (save d spec text).1 where
  noLinks hl := noLinks_save hl rfl
  files {place c} hp hc := by
    rcases get?_file_of_save hl rfl hc with hold | ⟨-, name, hlast, hname⟩
    · exact hold
    · rw [kindOf?, hname] at hk
      exact absurd ⟨name, hlast, Option.isSome_of_eq_some hk⟩ hp

theorem isEdit_remove? {d d' : Disk} {p : FilePath} (h : d.remove? p = some d') : IsEdit d d' := by
  rw [Disk.remove?] at h
  split at h
  next place e _ =>
    split at h
    next t ht =>
      cases h
      have hget := FileTree.get?_of_remove? ht
      refine ⟨fun hl q target hq => ?_, fun {q c} _ hq => ?_⟩
      · rw [hget] at hq
        split at hq
        · cases hq
        · exact hl q target hq
      · rw [hget] at hq
        split at hq
        · cases hq
        · exact hq
    next => cases h
  next => cases h

/-! ### Generations -/

/-- The texts that a draft gives to files. -/
inductive Draft.Gives (w : Draft) (l : Layout) : String → Prop
  | header : w.Gives l (w.headerText l)
  | source (path : FilePath) : w.Gives l (w.sourceText l path)

namespace Generator

/-- A file that writing a draft leaves was there before, or its text is given by the draft. -/
theorem Writes.get?_file {g : Generator} {d d' : Disk} {w : Draft} {o : Outcome}
    (h : Writes g d w d' o) (hl : d.tree.NoLinks) {place : Place} {c : Content}
    (hc : d'.tree.get? place = some (.file c)) :
    d.tree.get? place = some (.file c) ∨ ∃ text, c = .text text ∧ w.Gives g.layout text := by
  have hheader : ∀ {e : Disk} {r : Except Fault Unit},
      save d w.header (w.headerText g.layout) = (e, r) → e.tree.get? place = some (.file c) →
      d.tree.get? place = some (.file c) ∨ ∃ text, c = .text text ∧ w.Gives g.layout text :=
    fun hs he => by
      rcases get?_file_of_save hl hs he with hold | ⟨rfl, -⟩
      · exact .inl hold
      · exact .inr ⟨_, rfl, .header⟩
  have hsource : ∀ {e : Disk} {r : Except Fault Unit} {path : FilePath},
      save d w.header (w.headerText g.layout) = (e, .ok ()) →
      save e (g.layout.sourcePath d w.header) (w.sourceText g.layout path) = (d', r) →
      d.tree.get? place = some (.file c) ∨ ∃ text, c = .text text ∧ w.Gives g.layout text :=
    fun hs hs' => by
      rcases get?_file_of_save (noLinks_save hl hs) hs' hc with hold | ⟨rfl, -⟩
      · exact hheader hs hold
      · exact .inr ⟨_, rfl, .source _⟩
  cases h with
  | noHeader header => exact hheader header hc
  | unfound header => exact hheader header hc
  | noSource header _ source => exact hsource header source
  | both header _ source => exact hsource header source

end Generator

/-- A generation: the disk on which it was started, and for which spec. -/
structure Attempt where
  disk : Disk
  spec : FilePath

/-- The draft that an attempt could write. -/
def Attempt.Drafts (a : Attempt) (l : Layout) (w : Draft) : Prop := l.draft a.disk a.spec = .ok w

/-- The disks that a project can come to by generations and edits, with the attempts so far. -/
inductive Reachable (l : Layout) (start : Disk) : List Attempt → Disk → Prop
  | start : Reachable l start [] start
  | generate {log : List Attempt} {d : Disk} (g : Generator) (spec : FilePath) (hg : g.layout = l)
      (before : Reachable l start log d) :
      Reachable l start (⟨d, spec⟩ :: log) (g.generate d spec).1
  | edit {log : List Attempt} {d d' : Disk} (h : IsEdit d d') (before : Reachable l start log d) :
      Reachable l start log d'

namespace Reachable

variable {l : Layout} {start d : Disk} {log : List Attempt}

theorem noLinks (h : Reachable l start log d) (hl : start.tree.NoLinks) : d.tree.NoLinks := by
  induction h with
  | start => exact hl
  | generate g spec _ _ ih => exact g.noLinks_generate ih spec
  | edit h _ ih => exact h.noLinks ih

/-- Where a file of a name that is no spec's comes from. -/
theorem get?_file (h : Reachable l start log d) (hl : start.tree.NoLinks) {place : Place}
    {c : Content} (hp : ¬ IsSpecPlace place) (hc : d.tree.get? place = some (.file c)) :
    start.tree.get? place = some (.file c) ∨
      ∃ text, c = .text text ∧ ∃ a ∈ log, ∃ w, a.Drafts l w ∧ w.Gives l text := by
  induction h with
  | start => exact .inl hc
  | @generate log d g spec hg before ih =>
    subst hg
    have hold : d.tree.get? place = some (.file c) → start.tree.get? place = some (.file c) ∨
        ∃ text, c = .text text ∧ ∃ a ∈ ⟨d, spec⟩ :: log, ∃ w, a.Drafts g.layout w ∧
          w.Gives g.layout text := fun hd => by
      rcases ih hd with hs | ⟨text, rfl, a, ha, hw⟩
      · exact .inl hs
      · exact .inr ⟨text, rfl, a, List.mem_cons_of_mem _ ha, hw⟩
    rcases g.generate_cases d spec with hd | ⟨w, hdraft, hw⟩
    · exact hold (hd ▸ hc)
    · rcases hw.get?_file (before.noLinks hl) hc with hd | ⟨text, rfl, hgives⟩
      · exact hold hd
      · exact .inr ⟨text, rfl, _, List.mem_cons_self .., w, hdraft, hgives⟩
  | edit h _ ih => exact ih (h.files hp hc)

/-- A run is as many generations as it has come to. -/
theorem generateEach {g : Generator} (hg : g.layout = l) : ∀ (specs : List FilePath) {d : Disk}
    {log : List Attempt}, Reachable l start log d →
      ∃ log', Reachable l start (log' ++ log) (g.generateEach d specs).1
  | [], d, log, h => ⟨[], h⟩
  | spec :: specs, d, log, h => by
    have hstep := h.generate g spec hg
    rcases g.generateEach_cons d spec specs with heq | heq
    · rw [heq]; exact ⟨[⟨d, spec⟩], hstep⟩
    · obtain ⟨log', hlog'⟩ := generateEach hg specs hstep
      exact ⟨log' ++ [⟨d, spec⟩], by rw [heq, List.append_assoc]; exact hlog'⟩

theorem run {g : Generator} (hg : g.layout = l) (hformat : g.formatter = none)
    (h : Reachable l start log d) (specs : List FilePath) :
    ∃ log', Reachable l start (log' ++ log) (g.run d specs).1 := by
  obtain ⟨log', hlog'⟩ := generateEach hg specs h
  refine ⟨log', ?_⟩
  rw [Generator.run, hformat]
  split
  next hr => rw [hr] at hlog'; exact hlog'
  next hr => rw [hr] at hlog'; exact hlog'

end Reachable

end TypeGen.Project
