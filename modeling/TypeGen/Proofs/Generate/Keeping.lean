import TypeGen.Proofs.Generate.Draft
import TypeGen.Proofs.Layout.Destinations
import TypeGen.Proofs.Layout.Libraries
import TypeGen.Proofs.Layout.Settling

/-!
What generating leaves alone. Both texts of a draft can be read back once they are written, unless
header and source are one; and all other files, specs above all, keep their texts.
-/

namespace TypeGen.Project

open TypeGen.Spec TypeGen.Store TypeGen.Store.FilePath TypeGen.Text

namespace Generator

section

variable {g : Generator} {d d' : Disk} {w : Draft} {o : Outcome}

theorem Writes.noLinks (h : Writes g d w d' o) (hl : d.tree.NoLinks) : d'.tree.NoLinks := by
  cases h with
  | noHeader header => exact noLinks_save hl header
  | unfound header => exact noLinks_save hl header
  | noSource header _ source => exact noLinks_save (noLinks_save hl header) source
  | both header _ source => exact noLinks_save (noLinks_save hl header) source

theorem Writes.home (h : Writes g d w d' o) (hl : d.tree.NoLinks) : d'.home = d.home := by
  cases h with
  | noHeader header => exact home_save hl header
  | unfound header => exact home_save hl header
  | noSource header _ source =>
    exact (home_save (noLinks_save hl header) source).trans (home_save hl header)
  | both header _ source =>
    exact (home_save (noLinks_save hl header) source).trans (home_save hl header)

/-- A file keeps its text unless header or source go to its place. -/
theorem Writes.readText? (h : Writes g d w d' o) (hl : d.tree.NoLinks)
    (hpath : g.layout.headerPath? w.spec = some w.header) {q : FilePath} {s : String}
    (hq : d.readText? q = some s) (hsp : g.layout.Spares d.home w.spec q) :
    d'.readText? q = some s := by
  have hheader := fun hends => (hsp w.header hpath hends).1
  have hsource := fun hends => (hsp w.header hpath hends).2 d
  have hboth : ∀ {e : Disk} {path : FilePath} {r : Except Fault Unit},
      save d w.header (w.headerText g.layout) = (e, .ok ()) →
      save e (g.layout.sourcePath d w.header) (w.sourceText g.layout path) = (d', r) →
      d'.readText? q = some s := fun hs hs' => by
    refine readText?_of_save_ne (noLinks_save hl hs) hs' (readText?_of_save_ne hl hs hq hheader) ?_
    rw [home_save hl hs]
    exact fun _ => hsource (endsInName_of_save hs)
  cases h with
  | noHeader header => exact readText?_of_save_ne hl header hq hheader
  | unfound header => exact readText?_of_save_ne hl header hq hheader
  | noSource header _ source => exact hboth header source
  | both header _ source => exact hboth header source

/-- What is reported as generated is there, each file with its text. -/
theorem Writes.readText?_outputs {files : Generated} (h : Writes g d w d' (.generated files))
    (hl : d.tree.NoLinks)
    (hne : EndsInName w.header.pieces → w.header.aim d.home ≠ (g.layout.sourcePath d w.header).aim d.home) :
    files = ⟨w.spec, w.header, g.layout.sourcePath d w.header⟩ ∧
      d'.readText? w.header = some (w.headerText g.layout) ∧
      ∃ path, g.layout.includePath (save d w.header (w.headerText g.layout)).1 w.header = .ok path ∧
        (g.layout.library? d w.header = g.layout.library? d' w.header →
          g.layout.includePath d' w.header = .ok path) ∧
        d'.readText? (g.layout.sourcePath d w.header) = some (w.sourceText g.layout path) := by
  cases h with
  | both header found source =>
    have hl' := noLinks_save hl header
    refine ⟨rfl, ?_, _, by rw [header]; exact found, fun hlib => ?_, readText?_of_save source⟩
    · refine readText?_of_save_ne hl' source (readText?_of_save header) ?_
      rw [home_save hl header]
      exact fun _ => hne (endsInName_of_save header)
    · have hextends := extends_save hl' source
      exact Layout.includePath_extends hextends
        (Layout.library?_between hl hl' (extends_save hl header) hextends hlib) found

end

end Generator

/-! ### Any spec -/

namespace Generator

variable {g : Generator} {d d' : Disk} {spec : FilePath}

theorem noLinks_generate (g : Generator) (hl : d.tree.NoLinks) (spec : FilePath) :
    (g.generate d spec).1.tree.NoLinks := by
  rcases g.generate_cases d spec with hd | ⟨w, -, hw⟩
  · rw [hd]; exact hl
  · exact hw.noLinks hl

theorem home_generate (g : Generator) (hl : d.tree.NoLinks) (spec : FilePath) :
    (g.generate d spec).1.home = d.home := by
  rcases g.generate_cases d spec with hd | ⟨w, -, hw⟩
  · rw [hd]
  · exact hw.home hl

/-- A file keeps its text when a spec is generated that spares it. -/
theorem readText?_generate (hl : d.tree.NoLinks) {q : FilePath} {s : String}
    (hq : d.readText? q = some s) (hsp : g.layout.Spares d.home spec q) :
    (g.generate d spec).1.readText? q = some s := by
  rcases g.generate_cases d spec with hd | ⟨w, hdraft, hwrites⟩
  · rw [hd]; exact hq
  · obtain ⟨rfl, hpath, -⟩ := Layout.draft_eq_ok hdraft
    exact hwrites.readText? hl hpath hq hsp

/-- The texts of files that are reported as generated. -/
theorem readText?_generated {files : Generated} (hl : d.tree.NoLinks) (ha : g.layout.NamesApart)
    (hw : spec.IsWritten) (h : g.generate d spec = (d', .generated files)) :
    ∃ w, g.layout.draft d spec = .ok w ∧
      files = ⟨w.spec, w.header, g.layout.sourcePath d w.header⟩ ∧
      d'.readText? w.header = some (w.headerText g.layout) ∧
      ∃ path, g.layout.includePath (save d w.header (w.headerText g.layout)).1 w.header = .ok path ∧
        (g.layout.library? d w.header = g.layout.library? d' w.header →
          g.layout.includePath d' w.header = .ok path) ∧
        d'.readText? (g.layout.sourcePath d w.header) = some (w.sourceText g.layout path) := by
  obtain ⟨w, hdraft, hwrites⟩ := generate_generated h
  obtain ⟨rfl, hheader, -⟩ := Layout.draft_eq_ok hdraft
  refine ⟨w, hdraft, hwrites.readText?_outputs hl fun hends => ?_⟩
  obtain ⟨_, _, hof⟩ := Layout.exists_isHeaderOf hw hheader hends
  exact hof.aim_header_ne_source ha hof d.home d

/-- A spec that is found without going back up has the library that it had. -/
theorem library?_generated {files : Generated} (hl : d.tree.NoLinks) (hflat : g.layout.IsFlat)
    (hw : spec.IsWritten) (hup : .parent ∉ spec.components)
    (h : g.generate d spec = (d', .generated files)) :
    g.layout.library? d files.header = g.layout.library? d' files.header := by
  obtain ⟨w, hdraft, hwrites⟩ := generate_generated h
  obtain ⟨rfl, hpath, hread, -⟩ := Layout.draft_eq_ok hdraft
  obtain ⟨place, hplace, -⟩ := Disk.readText?_eq_some.1 hread
  cases hwrites with
  | both header _ source =>
    obtain ⟨_, _, hof⟩ := Layout.exists_isHeaderOf hw hpath (endsInName_of_save header)
    exact hof.library?_of_own_saves hflat hl hup (Disk.passes_of_filePlace? hl hplace) header source

end Generator

end TypeGen.Project
