import TypeGen.Proofs.Generate.Keeping
import TypeGen.Proofs.Generate.Sample

/-!
Outputs of a whole run. Two specs share a header only if nothing but their kinds tells them apart, and
a source only if nothing but the side of a library does; all that no later spec shares is left as it
was written.
-/

namespace TypeGen.Project

open TypeGen.Spec TypeGen.Store TypeGen.Store.FilePath TypeGen.Text

namespace Generator

variable {g : Generator}

/-! ### Runs -/

theorem noLinks_generateEach (g : Generator) : ∀ (specs : List FilePath) {d : Disk}, d.tree.NoLinks →
    (g.generateEach d specs).1.tree.NoLinks
  | [], _, hl => hl
  | spec :: specs, d, hl => by
    have hstep := g.noLinks_generate hl spec
    rcases g.generateEach_cons d spec specs with h | h
    · rw [h]; exact hstep
    · rw [h]; exact noLinks_generateEach g specs hstep

/-- A file that all specs of a run spare keeps its text. -/
theorem readText?_generateEach {p : FilePath} {s : String} : ∀ {specs : List FilePath} {d : Disk},
    d.tree.NoLinks → d.readText? p = some s → (∀ q ∈ specs, g.layout.Spares d.home q p) →
    (g.generateEach d specs).1.readText? p = some s
  | [], _, _, hp, _ => hp
  | spec :: specs, d, hl, hp, hsp => by
    have hstep := readText?_generate hl hp (hsp spec (List.mem_cons_self ..))
    rcases g.generateEach_cons d spec specs with h | h
    · rw [h]; exact hstep
    · rw [h]
      refine readText?_generateEach (g.noLinks_generate hl spec) hstep fun q hq => ?_
      rw [g.home_generate hl]; exact hsp q (List.mem_cons_of_mem _ hq)

/-- Files are reported in the order of their specs. -/
theorem generated_sublist : ∀ {specs : List FilePath} {d d' : Disk} {report : Report},
    g.generateEach d specs = (d', .ok report) → (report.generated.map (·.spec)).Sublist specs
  | [], _, _, _, h => by cases h; exact .slnil
  | spec :: specs, d, d', report, h => by
    rw [generateEach] at h
    split at h
    next => cases h
    next e outcome _ hgen =>
      split at h
      next rest hrest =>
        have ih := generated_sublist hrest
        cases h
        cases outcome with
        | generated files =>
          obtain ⟨w, hdraft, hwrites⟩ := generate_generated hgen
          have hspec : files.spec = spec := by
            cases hwrites with
            | both => exact (Layout.draft_eq_ok hdraft).1
          rw [Report.add, List.map_cons, hspec]
          exact ih.cons_cons spec
        | unchanged => exact ih.cons spec
        | failed cause => exact ih.cons spec
        | aborted fault => exact ih.cons spec
      next => cases h

/-- Where in a run files were generated. -/
theorem exists_of_mem_generated : ∀ {specs : List FilePath} {d d' : Disk} {report : Report}
    {files : Generated}, g.generateEach d specs = (d', .ok report) → files ∈ report.generated →
      ∃ before spec after e, specs = before ++ spec :: after ∧
        g.generate (g.generateEach d before).1 spec = (e, .generated files) ∧
        (g.generateEach e after).1 = d'
  | [], _, _, _, _, h, hm => by cases h; cases hm
  | spec :: specs, d, d', report, files, h, hm => by
    rw [generateEach] at h
    split at h
    next => cases h
    next e outcome hnot hgen =>
      split at h
      next rest hrest =>
        cases h
        have hlater : files ∈ rest.generated → ∃ before q after e', spec :: specs = before ++ q :: after ∧
            g.generate (g.generateEach d before).1 q = (e', .generated files) ∧
            (g.generateEach e' after).1 = d' := fun hm => by
          obtain ⟨before, q, after, e', rfl, hq, hafter⟩ := exists_of_mem_generated hrest hm
          refine ⟨spec :: before, q, after, e', rfl, ?_, hafter⟩
          rw [generateEach_of_ne_aborted hgen hnot]; exact hq
        cases outcome with
        | generated files' =>
          rcases List.mem_cons.1 hm with rfl | hm
          · exact ⟨[], spec, specs, e, rfl, hgen, by rw [hrest]⟩
          · exact hlater hm
        | unchanged => exact hlater hm
        | failed cause => exact hlater hm
        | aborted fault => exact hlater hm
      next => cases h

end Generator

/-! ### What a run reports -/

/-- Of two specs of a project both are below its root. -/
theorem Layout.isBelow_of_specFiles {l : Layout} {d : Disk} (ht : d.tree.HasPlainNames)
    (hroot : l.root.IsWritten) {before after : List FilePath} {p q : FilePath}
    (h : l.specFiles d = before ++ p :: after) (hq : q ∈ after) :
    l.root.IsBelow p ∧ l.root.IsBelow q ∧ q.IsWritten := by
  have hlen : 2 ≤ (l.files d).length := by
    refine Nat.le_trans ?_ (List.length_filter_le (fun p => (kindOf? p).isSome) _)
    have hpos := List.length_pos_of_mem hq
    change 2 ≤ (l.specFiles d).length
    rw [h, List.length_append, List.length_cons]
    omega
  have hbelow : ∀ {r : FilePath}, r ∈ l.specFiles d → r.IsWritten ∧ l.root.IsBelow r := fun hr => by
    obtain ⟨hw, hsingle | hb⟩ := Disk.mem_files ht hroot (List.mem_of_mem_filter hr)
    · rw [files, hsingle] at hlen; simp at hlen
    · exact ⟨hw, hb⟩
  have hpmem : p ∈ l.specFiles d := by rw [h]; simp
  have hqmem : q ∈ l.specFiles d := by rw [h]; simp [hq]
  exact ⟨(hbelow hpmem).2, (hbelow hqmem).2, (hbelow hqmem).1⟩

/-- Reported files are the header and a source of a spec of the project. -/
theorem Generator.isHeaderOf_of_mem {g : Generator} {d d' : Disk} {report : Report}
    {files : Generated} (ht : d.tree.HasPlainNames) (hroot : g.layout.root.IsWritten)
    (h : g.generateEach d (g.layout.specFiles d) = (d', .ok report)) (hm : files ∈ report.generated) :
    files.spec ∈ g.layout.specFiles d ∧
      (∃ stem k, g.layout.IsHeaderOf stem k files.spec files.header) ∧
      ∃ e, files.source = g.layout.sourcePath e files.header := by
  have hmem := (generated_sublist h).subset (List.mem_map_of_mem hm)
  obtain ⟨before, spec, after, e, hsplit, hgen, -⟩ := exists_of_mem_generated h hm
  obtain ⟨w, hdraft, hwrites⟩ := generate_generated hgen
  obtain ⟨rfl, hheader, -⟩ := Layout.draft_eq_ok hdraft
  cases hwrites with
  | both hsave =>
    have hw := (Disk.mem_files ht hroot (List.mem_of_mem_filter hmem)).1
    exact ⟨hmem, Layout.exists_isHeaderOf hw hheader (endsInName_of_save hsave), _, rfl⟩

/-- What a generator wrote when it came to a spec. Both texts are of one draft, and the source includes
the header by the path under which that was found when it had just been written. -/
structure Generator.Wrote (g : Generator) (c : Disk) (a : Generated) (w : Draft) (path : FilePath) :
    Prop where
  reported : (g.generate c a.spec).2 = .generated a
  draft : g.layout.draft c a.spec = .ok w
  header : a.header = w.header
  source : a.source = g.layout.sourcePath c a.header
  found : g.layout.includePath (save c a.header (w.headerText g.layout)).1 a.header = .ok path

/-- Outputs of a run of the whole project. Two headers are one only if nothing but their kinds tells
their specs apart, and two sources only if nothing but the side of a library does; no header is a
source, and neither is a spec. Without links, what no later spec shares is as it was written when the
formatter comes to it. -/
theorem outputs_of_runAll {g : Generator} {d d' : Disk} {report : Report} {text file : String}
    (hconfig : parseConfig text file = .ok g.layout.config) (hk : g.layout.KeepsSpecs)
    (hcc : g.layout.config.headerExtension ≠ ".cc")
    (hno : ¬ sourceSuffix.toList <:+ g.layout.config.headerExtension.toList)
    (hroot : g.layout.root.IsWritten) (ht : d.tree.HasPlainNames)
    (hrun : g.runAll d = (d', .ok report)) :
    (report.generated.Pairwise fun a b => a.spec.same b.spec = false ∧
      (a.header.same b.header = true ↔ Twins a.spec b.spec) ∧
      (a.source.same b.source = true → SourceTwins a.spec b.spec)) ∧
    (∀ a ∈ report.generated, kindOf? a.header = none ∧ kindOf? a.source = none ∧
      ∀ b ∈ report.generated, a.header.same b.source = false) ∧
    ∃ e, g.generateEach d (g.layout.specFiles d) = (e, .ok report) ∧
      format g.formatter e g.layout.root report.written = (d', .ok ()) ∧
      (d.tree.NoLinks → g.layout.StaysInside → ∀ a ∈ report.generated, ∃ before after w path,
        g.layout.specFiles d = before ++ a.spec :: after ∧
        g.Wrote (g.generateEach d before).1 a w path ∧ g.layout.draft e a.spec = .ok w ∧
        ((∀ q ∈ after, ¬ Twins a.spec q) → e.readText? a.header = some (w.headerText g.layout)) ∧
        ((∀ q ∈ after, ¬ SourceTwins a.spec q) →
          e.readText? a.source = some (w.sourceText g.layout path))) := by
  have ha : g.layout.NamesApart := ⟨dotted_of_parseConfig hconfig, hk, hcc, hno⟩
  obtain ⟨e, heach, hformat⟩ := Generator.run_eq_ok.1 hrun
  refine ⟨?_, fun a hmem => ?_, e, heach, hformat, fun hl hin a hmem => ?_⟩
  · have hpairs : (report.generated.map (·.spec)).Pairwise fun p q => p.components ≠ q.components :=
      ((Disk.pairwise_files ht _ _).sublist (List.filter_sublist ..)).sublist
        (Generator.generated_sublist heach)
    refine (List.pairwise_map.1 hpairs).imp_of_mem fun {a b} hma hmb hne => ?_
    obtain ⟨-, ⟨_, _, h⟩, _, hsource⟩ := g.isHeaderOf_of_mem ht hroot heach hma
    obtain ⟨-, ⟨_, _, h'⟩, _, hsource'⟩ := g.isHeaderOf_of_mem ht hroot heach hmb
    refine ⟨decide_eq_false hne, ?_, fun hsame => ?_⟩
    · rw [same, decide_eq_true_eq]; exact h.components_iff h'
    · rw [hsource, hsource'] at hsame
      exact h.sourceTwins h' (of_decide_eq_true hsame)
  · obtain ⟨-, ⟨_, _, h⟩, e, hsource⟩ := g.isHeaderOf_of_mem ht hroot heach hmem
    obtain ⟨_, -, hname⟩ := h.fileName?_source e
    refine ⟨h.kindOf?_header hk, hsource ▸ kindOf?_of_source hname, fun b hmb => ?_⟩
    obtain ⟨-, ⟨_, _, h'⟩, e', hsource'⟩ := g.isHeaderOf_of_mem ht hroot heach hmb
    obtain ⟨stem', -, hname'⟩ := h'.fileName?_source e'
    refine decide_eq_false fun hsame => h.fileName?_ne ha stem' ?_
    rw [fileName?_congr hsame, hsource', hname']
  · obtain ⟨before, spec, after, c', hsplit, hgen, rfl⟩ :=
      Generator.exists_of_mem_generated heach hmem
    have hwritten : ∀ q ∈ g.layout.specFiles d, q.IsWritten := fun q hq =>
      (Disk.mem_files ht hroot (List.mem_of_mem_filter hq)).1
    have hw : spec.IsWritten := hwritten spec (by rw [hsplit]; simp)
    have hwafter : ∀ q ∈ after, q.IsWritten := fun q hq => hwritten q (by rw [hsplit]; simp [hq])
    -- the disk on which the spec was read, and the one that was left by generating it
    have hl₀ := g.noLinks_generateEach before hl
    obtain ⟨w, hdraft, rfl, hheader, path, hpath, -, hsource⟩ :=
      Generator.readText?_generated hl₀ ha hw hgen
    have hl₁ : c'.tree.NoLinks := by
      have hlinks := g.noLinks_generate hl₀ spec; rwa [hgen] at hlinks
    obtain ⟨rfl, hheaderPath, hread, kind, hkind, -⟩ := Layout.draft_eq_ok hdraft
    have hreadSpec : (g.generateEach c' after).1.readText? w.spec = some w.text := by
      have hstep := Generator.readText?_generate hl₀ hread (Layout.spares_spec hk hw hkind _)
      rw [hgen] at hstep
      exact Generator.readText?_generateEach hl₁ hstep fun q hq =>
        Layout.spares_spec hk (hwafter q hq) hkind _
    obtain ⟨-, ⟨_, _, h⟩, -⟩ := g.isHeaderOf_of_mem ht hroot heach hmem
    refine ⟨before, after, w, path, hsplit, ⟨by rw [hgen], hdraft, rfl, rfl, hpath⟩,
      Layout.draft_congr hdraft hreadSpec, fun hne => ?_, fun hne => ?_⟩
    · refine Generator.readText?_generateEach hl₁ hheader fun q hq => ?_
      obtain ⟨hp, hq', hwq⟩ := Layout.isBelow_of_specFiles ht hroot hsplit hq
      exact Layout.spares_header h ha hin hp hq' hwq _ (hne q hq)
    · refine Generator.readText?_generateEach hl₁ hsource fun q hq => ?_
      obtain ⟨hp, hq', hwq⟩ := Layout.isBelow_of_specFiles ht hroot hsplit hq
      exact Layout.spares_source h ha hin hp hq' hwq _ (hne q hq) _

/-- A project with a struct and an enum of one stem. -/
def bothKinds : Disk :=
  furnish [] [("r/foo.enum.toml", smallEnum), ("r/foo.struct.toml", emptyStruct)]

theorem runAll_bothKinds : sampleGenerator.runAll bothKinds =
    ((sampleGenerator.runAll bothKinds).1, .ok ⟨[ofBoth ofEnum, ofBoth ofStruct], [], []⟩) :=
  eq_mk_of_snd (by decide +kernel)

/-- The enum and the struct are both reported, with the same header and the same source. -/
theorem overwriting_bothKinds : ¬ ∀ (g : Generator) (d d' : Disk) (report : Report)
    (text file : String), parseConfig text file = .ok g.layout.config →
    g.runAll d = (d', .ok report) → report.written.Pairwise fun p q => p.same q = false := by
  intro h
  exact absurd (h _ _ _ _ _ _ parseConfig_sample runAll_bothKinds) (by decide)

/-- What stays is what was generated for the struct, which comes later. -/
theorem keeping_bothKinds : ∃ w path,
    sampleGenerator.Wrote (sampleGenerator.generateEach bothKinds [ofEnum]).1 (ofBoth ofStruct) w
      path ∧
    sampleGenerator.layout.draft (sampleGenerator.runAll bothKinds).1 ofStruct = .ok w ∧
    (sampleGenerator.runAll bothKinds).1.readText? (ofBoth ofStruct).header =
      some (w.headerText sampleGenerator.layout) ∧
    (sampleGenerator.runAll bothKinds).1.readText? (ofBoth ofStruct).source =
      some (w.sourceText sampleGenerator.layout path) := by
  have hin : sampleGenerator.layout.StaysInside := by rw [Layout.StaysInside]; decide
  have hfiles : sampleGenerator.layout.specFiles bothKinds = [ofEnum, ofStruct] := by decide +kernel
  have hl : bothKinds.tree.NoLinks := noLinks_furnish _ _
  have ht : bothKinds.tree.HasPlainNames := hasPlainNames_furnish _ _
  obtain ⟨-, -, e, -, hformat, hkept⟩ := outputs_of_runAll parseConfig_sample (by decide) (by decide)
    (by decide) (isWritten_ofString _) ht runAll_bothKinds
  obtain rfl : e = (sampleGenerator.runAll bothKinds).1 := (Prod.mk.inj hformat).1
  obtain ⟨before, after, w, path, hsplit, hwrote, hdraft, hheader, hsource⟩ :=
    hkept hl hin (ofBoth ofStruct) (by simp)
  obtain ⟨rfl, rfl⟩ : before = [ofEnum] ∧ after = [] := by
    rw [hfiles] at hsplit
    rcases before with _ | ⟨p, _ | ⟨q, before⟩⟩
    · exact absurd (List.cons.inj hsplit).1 (by decide)
    · obtain ⟨rfl, htail⟩ := List.cons.inj hsplit
      exact ⟨rfl, (List.cons.inj htail).2.symm⟩
    · exact absurd (congrArg List.length hsplit) (by simp)
  exact ⟨w, path, hwrote, hdraft, hheader (by simp), hsource (by simp)⟩

end TypeGen.Project
