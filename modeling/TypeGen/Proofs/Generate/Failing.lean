import Mathlib.Data.List.Nodup
import TypeGen.Proofs.Generate.Draft
import TypeGen.Proofs.Generate.Sample
import TypeGen.Proofs.Layout.Including
import TypeGen.Proofs.Store.Saving

/-!
Specs that fail. A header that has been written is found again, so a spec fails before anything is
written for it and leaves the disk as it was. A run therefore comes to the same when the specs that
fail in it are left out.
-/

namespace TypeGen.Project

open TypeGen.Store

/-! ### One spec -/

theorem isFile_of_save {d d' : Disk} {p : FilePath} {text : String}
    (h : save d p text = (d', .ok ())) : d'.isFile p = true := by
  obtain ⟨place, hloc⟩ := Disk.exists_locate_of_readText? (readText?_of_save h)
  rw [Disk.isFile, hloc]

namespace Generator

/-- A draft does not fail once its header is written. -/
theorem Writes.ne_failed {g : Generator} {d d' : Disk} {w : Draft} {o : Outcome}
    (h : Writes g d w d' o) (cause : Failure) : o ≠ .failed cause := by
  cases h with
  | unfound header found =>
    obtain ⟨path, hpath⟩ := g.layout.includePath_of_isFile (isFile_of_save header)
    rw [hpath] at found; cases found
  | noHeader => simp
  | noSource => simp
  | both => simp

/-- A spec that fails leaves the disk as it was. -/
theorem eq_of_failed {g : Generator} {d d' : Disk} {spec : FilePath} {cause : Failure}
    (h : g.generate d spec = (d', .failed cause)) : d' = d := by
  rcases generate_cases g d spec with hd | ⟨w, -, hwrites⟩
  · rw [← hd, h]
  · rw [h] at hwrites
    exact absurd rfl (hwrites.ne_failed cause)

theorem spec_of_generated {g : Generator} {d d' : Disk} {spec : FilePath} {files : Generated}
    (h : g.generate d spec = (d', .generated files)) : files.spec = spec := by
  obtain ⟨w, hdraft, hwrites⟩ := generate_generated h
  cases hwrites with
  | both => exact (Layout.draft_eq_ok hdraft).1

end Generator

/-! ### What becomes of specs -/

namespace Outcome

def generated? : Outcome → Option Generated
  | .generated files => some files
  | _ => none

def isUnchanged : Outcome → Bool
  | .unchanged => true
  | _ => false

def failed? : Outcome → Option Failure
  | .failed cause => some cause
  | _ => none

def isAborted : Outcome → Bool
  | .aborted _ => true
  | _ => false

end Outcome

/-- Specs with what became of each. -/
abbrev Course := List (FilePath × Outcome)

namespace Course

/-- The specs that did not fail. -/
def kept (h : Course) : List FilePath := (h.filter (·.2.failed?.isNone)).map (·.1)

/-- Every spec in one of three lists, each in the order of the specs. -/
def report (h : Course) : Report where
  generated := h.filterMap (·.2.generated?)
  unchanged := (h.filter (·.2.isUnchanged)).map (·.1)
  failures := h.filterMap fun x => x.2.failed?.map (x.1, ·)

theorem report_cons (x : FilePath × Outcome) (h : Course) :
    report (x :: h) = (report h).add x.1 x.2 := by
  obtain ⟨spec, o⟩ := x
  cases o <;> rfl

theorem mem_failures {h : Course} {spec : FilePath} :
    spec ∈ h.report.failures.map (·.1) ↔ ∃ x ∈ h, x.2.failed?.isSome = true ∧ x.1 = spec := by
  constructor
  · intro hm
    obtain ⟨y, hy, rfl⟩ := List.mem_map.1 hm
    obtain ⟨x, hx, hxy⟩ := List.mem_filterMap.1 hy
    obtain ⟨cause, hcause, rfl⟩ := Option.map_eq_some_iff.1 hxy
    exact ⟨x, hx, by rw [hcause]; rfl, rfl⟩
  · rintro ⟨x, hx, hsome, rfl⟩
    obtain ⟨cause, hcause⟩ := Option.isSome_iff_exists.1 hsome
    exact List.mem_map.2 ⟨(x.1, cause), List.mem_filterMap.2 ⟨x, hx, by rw [hcause]; rfl⟩, rfl⟩

/-- Where no spec comes twice, those that are kept are those that are not among the failures. -/
theorem kept_eq_filter {h : Course} (hn : (h.map (·.1)).Nodup) :
    h.kept = (h.map (·.1)).filter fun spec => spec ∉ h.report.failures.map (·.1) := by
  rw [kept, List.filter_map]
  congr 1
  refine List.filter_congr fun x hx => ?_
  have hfailed : x.1 ∈ h.report.failures.map (·.1) ↔ x.2.failed?.isSome = true := by
    rw [mem_failures]
    refine ⟨?_, fun hsome => ⟨x, hx, hsome, rfl⟩⟩
    rintro ⟨y, hy, hsome, hyx⟩
    rwa [List.inj_on_of_nodup_map hn hy hx hyx] at hsome
  simp only [Function.comp, hfailed]
  cases x.2.failed? <;> rfl

end Course

namespace Generator

/-- What becomes of each spec, on the disk that those ahead of it leave. -/
def course (g : Generator) (d : Disk) : List FilePath → Course
  | [] => []
  | spec :: specs => (spec, (g.generate d spec).2) :: g.course (g.generate d spec).1 specs

theorem map_course (g : Generator) : ∀ (d : Disk) (specs : List FilePath),
    (g.course d specs).map (·.1) = specs
  | _, [] => rfl
  | _, spec :: specs => congrArg (spec :: ·) (map_course g _ specs)

theorem spec_of_mem_course {g : Generator} {x : FilePath × Outcome} {files : Generated} :
    ∀ {d : Disk} {specs : List FilePath}, x ∈ g.course d specs → x.2 = .generated files →
      files.spec = x.1
  | _, [], hx, _ => by cases hx
  | _, _ :: _, hx, hfiles => by
    rcases List.mem_cons.1 hx with rfl | hx
    · exact spec_of_generated (eq_mk_of_snd hfiles)
    · exact spec_of_mem_course hx hfiles

/-! ### Runs -/

variable {g : Generator} {d d' : Disk} {specs : List FilePath} {report : Report}

/-- A run that comes to an end reports on its first spec and on what the others come to. -/
theorem generateEach_cons_eq_ok {spec : FilePath}
    (h : g.generateEach d (spec :: specs) = (d', .ok report)) :
    (g.generate d spec).2.isAborted = false ∧
      ∃ rest, g.generateEach (g.generate d spec).1 specs = (d', .ok rest) ∧
        report = rest.add spec (g.generate d spec).2 := by
  rw [generateEach] at h
  split at h
  next => cases h
  next e o hnot hgen =>
    rw [hgen]
    split at h
    next rest hrest =>
      cases h
      refine ⟨?_, rest, hrest, rfl⟩
      cases o with
      | aborted fault => exact absurd rfl (hnot fault)
      | _ => rfl
    next => cases h

theorem generateEach_cons_of_ok {spec : FilePath} {rest : Report}
    (ha : (g.generate d spec).2.isAborted = false)
    (h : g.generateEach (g.generate d spec).1 specs = (d', .ok rest)) :
    g.generateEach d (spec :: specs) = (d', .ok (rest.add spec (g.generate d spec).2)) := by
  rw [generateEach]
  split
  next hgen => rw [hgen] at ha; cases ha
  next e o _ hgen =>
    rw [hgen] at h ⊢
    simp only [h]

theorem generateEach_course : ∀ {specs : List FilePath} {d : Disk} {report : Report},
    g.generateEach d specs = (d', .ok report) → report = (g.course d specs).report ∧
      ∀ x ∈ g.course d specs, x.2.isAborted = false
  | [], _, _, h => by cases h; exact ⟨rfl, by simp [course]⟩
  | spec :: specs, d, report, h => by
    obtain ⟨ha, rest, hrest, rfl⟩ := generateEach_cons_eq_ok h
    obtain ⟨rfl, hall⟩ := generateEach_course hrest
    refine ⟨by rw [course, Course.report_cons], fun x hx => ?_⟩
    rcases List.mem_cons.1 hx with rfl | hx
    · exact ha
    · exact hall x hx

/-- The specs that fail may as well be left out. -/
theorem generateEach_kept : ∀ {specs : List FilePath} {d : Disk} {report : Report},
    g.generateEach d specs = (d', .ok report) →
      g.generateEach d (g.course d specs).kept = (d', .ok { report with failures := [] })
  | [], _, _, h => by cases h; rfl
  | spec :: specs, d, report, h => by
    obtain ⟨ha, rest, hrest, rfl⟩ := generateEach_cons_eq_ok h
    have ih := generateEach_kept hrest
    cases hgen : g.generate d spec with | mk e o =>
    rw [hgen] at ha ih
    rw [course, hgen]
    cases o with
    | failed cause =>
      rw [eq_of_failed hgen] at ih ⊢
      exact ih
    | aborted fault => cases ha
    | _ =>
      have hgoes : (g.generate d spec).2.isAborted = false := by rw [hgen]; rfl
      have hcons := generateEach_cons_of_ok hgoes (by rw [hgen]; exact ih)
      rw [hgen] at hcons
      exact hcons

end Generator

/-- A spec that fails leaves the disk as it was. A run that comes to an end has every spec in one of
its three lists, each in the order of the specs; and without the specs that failed it leaves the same
disk and has the same files generated and the same specs unchanged. -/
theorem run_without_failed (g : Generator) (d : Disk) :
    (∀ spec d' cause, g.generate d spec = (d', .failed cause) → d' = d) ∧
    ∀ specs d' report, g.run d specs = (d', .ok report) →
      (g.course d specs).map (·.1) = specs ∧
      (∀ x ∈ g.course d specs, x.2.isAborted = false ∧
        ∀ files, x.2 = .generated files → files.spec = x.1) ∧
      report = (g.course d specs).report ∧
      g.run d (g.course d specs).kept = (d', .ok { report with failures := [] }) ∧
      (specs.Nodup → g.run d (specs.filter fun spec => spec ∉ report.failures.map (·.1)) =
        (d', .ok { report with failures := [] })) := by
  refine ⟨fun spec d' cause h => Generator.eq_of_failed h, fun specs d' report h => ?_⟩
  obtain ⟨e, heach, hformat⟩ := Generator.run_eq_ok.1 h
  obtain ⟨hreport, hall⟩ := Generator.generateEach_course heach
  have hmap := g.map_course d specs
  have hkept : g.run d (g.course d specs).kept = (d', .ok { report with failures := [] }) :=
    Generator.run_eq_ok.2 ⟨e, Generator.generateEach_kept heach, hformat⟩
  refine ⟨hmap, fun x hx => ⟨hall x hx, fun files => Generator.spec_of_mem_course hx⟩, hreport, hkept,
    fun hn => ?_⟩
  rwa [Course.kept_eq_filter (by rwa [hmap]), hmap, ← hreport] at hkept

/-- A spec that is not there, before one that is. -/
theorem run_without_missing : sampleGenerator.run (furnish [] [("r/foo.struct.toml", emptyStruct)])
    [ofStruct] = ((sampleGenerator.run (furnish [] [("r/foo.struct.toml", emptyStruct)])
      [ofEnum, ofStruct]).1, .ok ⟨[ofBoth ofStruct], [], []⟩) := by
  have h := (run_without_failed sampleGenerator (furnish [] [("r/foo.struct.toml", emptyStruct)])).2
    [ofEnum, ofStruct] _
    ⟨[ofBoth ofStruct], [], [(ofEnum, .spec (.unreadable "r/foo.enum.toml" .missing))]⟩
    (eq_mk_of_snd (by decide +kernel))
  exact h.2.2.2.2 (by decide)

end TypeGen.Project
