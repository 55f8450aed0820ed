import TypeGen.Code.Step
import TypeGen.Proofs.Code.Writing

/-!
Piecing. A page knows at all times whether a line begins on it, so a text goes on where the text ahead of
it has ended: however it is cut into pieces, within a line, at a line feed or between two of them, the
page comes out the same.
-/

namespace TypeGen.Code

open TypeGen.Text

/-! ### Line by line -/

namespace Page

/-- Writes a part of a line. If it begins the line it goes behind the margin; an empty part begins none. -/
def putPart (p : Page) (part : List Char) : Page :=
  if part.isEmpty then p
  else if p.atLineStart then
    { p with text := p.text ++ p.margin ++ String.ofList part, atLineStart := false }
  else { p with text := p.text ++ String.ofList part }

/-- Writes parts of lines, a line feed ahead of each. -/
def putParts (p : Page) (parts : List (List Char)) : Page :=
  parts.foldl (fun p part => p.newline.putPart part) p

/-- Writes a text line by line. -/
def writeLines (p : Page) (s : String) : Page :=
  match splitAt '\n' s.toList with
  | [] => p
  | first :: rest => (p.putPart first).putParts rest

/-- A part is written as its characters are. -/
theorem putPart_eq_foldl (p : Page) {part : List Char} (hn : '\n' ∉ part) :
    p.putPart part = part.foldl put p := by
  cases part with
  | nil => rfl
  | cons c cs =>
    have hword := write_word p (t := String.ofList (c :: cs)) (by simpa using hn) (by simp)
    rw [write, String.toList_ofList] at hword
    rw [hword, putPart, if_neg (by simp), lead]
    cases p.atLineStart <;> simp

/-- The characters of lines that are joined by line feeds. -/
theorem foldl_intercalate : ∀ (rest : List (List Char)) (first : List Char) (p : Page),
    (∀ part ∈ first :: rest, '\n' ∉ part) →
      (['\n'].intercalate (first :: rest)).foldl put p = (p.putPart first).putParts rest
  | [], first, p, h => by
    rw [List.intercalate_singleton, putPart_eq_foldl p (h first (List.mem_cons_self ..))]
    rfl
  | next :: rest, first, p, h => by
    obtain ⟨hfirst, hrest⟩ := List.forall_mem_cons.1 h
    -- The characters of a part and the line feed behind it, then the parts that are left.
    rw [List.intercalate_cons_cons, List.foldl_append, List.foldl_append, ← putPart_eq_foldl p hfirst]
    exact foldl_intercalate rest next _ hrest

/-- It makes no difference whether a text is written line by line or character by character. -/
theorem writeLines_eq_write (p : Page) (s : String) : p.writeLines s = p.write s := by
  obtain ⟨first, rest, hparts⟩ := List.exists_cons_of_ne_nil (splitAt_ne_nil '\n' s.toList)
  have hjoined := foldl_intercalate rest first p fun part hpart =>
    notMem_of_mem_splitAt (hparts ▸ hpart)
  rw [← hparts, intercalate_splitAt] at hjoined
  rw [writeLines, hparts]
  exact hjoined.symm

end Page

/-! ### Pages that are reached -/

/-- The pages that steps come to: from a blank page on, whatever a step passes on its way, within its
bodies too, and where it leaves the page, however its bodies end. -/
inductive Page.Reachable : Page → Prop
  | blank (i : Indent) : Reachable (Page.blank i)
  -- A body that looks at the page does in each run what some list of steps does.
  | along {p : Page} (s : Step) {acts : List Act} :
    Reachable p → acts <+: (traceAll s.strokes).1 → Reachable (replay acts p)

namespace Page.Reachable

variable {p : Page}

/-- Behind a step that fails or unwinds the page can be gone on with. -/
theorem run (h : p.Reachable) (s : Step) : (s.run p).1.Reachable := by
  rw [Step.run, runAll_eq_replay]
  exact h.along s List.prefix_rfl

theorem isTidy (h : p.Reachable) : p.IsTidy := by
  induction h with
  | blank i => exact isTidy_blank i
  | along s _ _ ih => exact ih.replay _

end Page.Reachable

/-! ### Cuts -/

/-- An act in its least pieces: a text is written character by character. -/
def Act.spelled : Act → List Act
  | .text s => s.toList.map fun c => .text (String.singleton c)
  | a => [a]

theorem Act.replay_spelled (a : Act) (p : Page) : replay a.spelled p = a.perform p := by
  cases a with
  | text s =>
    have hput : (fun (p : Page) c => (Act.text (String.singleton c)).perform p) = Page.put := by
      funext p c
      simp [Act.perform, Page.write]
    rw [Act.spelled, replay, List.foldl_map, hput]
    rfl
  | newline | freshLine | gap | indent | dedent | opened | closed => rfl

theorem replay_spelled (acts : List Act) : ∀ p : Page,
    replay (acts.flatMap Act.spelled) p = replay acts p := by
  induction acts with
  | nil => exact fun _ => rfl
  | cons a acts ih =>
    intro p
    rw [List.flatMap_cons, replay_append, a.replay_spelled]
    exact ih _

/-- Steps that do the same and end the same, at any depth, but for how their texts are cut. -/
structure DifferInCuts (xs ys : List Step) : Prop where
  acts : (traceAll (strokesOf xs)).1.flatMap Act.spelled = (traceAll (strokesOf ys)).1.flatMap Act.spelled
  ending : (traceAll (strokesOf xs)).2 = (traceAll (strokesOf ys)).2

theorem DifferInCuts.runSteps_eq {xs ys : List Step} (h : DifferInCuts xs ys) (p : Page) :
    runSteps xs p = runSteps ys p := by
  rw [runSteps, runSteps, runAll_eq_replay, runAll_eq_replay, h.ending, ← replay_spelled, h.acts,
    replay_spelled]

example (p : Page) :
    runSteps [.block "f()" "\x7d" [.text "a;\n\nb", .fail "stop"]] p =
      runSteps [.block "f()" "\x7d" [.text "a", .text ";\n", .text "", .text "\nb", .fail "stop"]] p :=
  DifferInCuts.runSteps_eq ⟨rfl, rfl⟩ p

/-- On a page that steps come to, a line begins exactly where nothing is written yet or a line feed came
last. A step only adds to the text, up to each place on its way and from there to its end. And texts have
no seams: each is written line by line, two in a row come to the same as one, and so do steps that differ
in how their texts are cut. -/
theorem Page.Reachable.seamless {p : Page} (h : p.Reachable) :
    (p.atLineStart = true ↔ p.text = "" ∨ ∃ lines, p.text = lines ++ "\n") ∧
    (∀ (s : Step) (acts more : List Act), (traceAll s.strokes).1 = acts ++ more →
      ∃ added rest, (replay acts p).text = p.text ++ added ∧
        (s.run p).1.text = p.text ++ added ++ rest) ∧
    (∀ s : String, (Step.text s).run p = (p.writeLines s, .done)) ∧
    (∀ s t : String, (p.writeLines s).writeLines t = p.writeLines (s ++ t)) ∧
    ∀ xs ys : List Step, DifferInCuts xs ys → runSteps xs p = runSteps ys p := by
  refine ⟨?_, fun s acts more hacts => ?_, fun s => ?_, fun s t => ?_, fun xs ys hcuts => ?_⟩
  · have htidy : p.atLineStart = startsLine p.text.toList := h.isTidy
    rw [htidy]
    exact startsLine_iff
  · obtain ⟨added, hadded⟩ := exists_text_replay acts p
    obtain ⟨rest, hrest⟩ := exists_text_replay more (replay acts p)
    refine ⟨added, rest, hadded, ?_⟩
    rw [Step.run, runAll_eq_replay, hacts, replay_append, hrest, hadded]
  · rw [Page.writeLines_eq_write]
    rfl
  · rw [Page.writeLines_eq_write, Page.writeLines_eq_write, Page.writeLines_eq_write, write_append]
  · exact hcuts.runSteps_eq p

/-- A page behind a bare indent, a body that unwound in two scopes and a bare dedent, seen from within
braces. -/
def disturbed : Page :=
  replay [.gap, .opened ⟨.indented, "\x7b", "\x7d"⟩, .text "d"]
    (Step.dedent.run ((Step.block "f()" "\x7d" [.indent, .text "a;\n\n",
      .parens [.text "b", .unwind "stop"], .line "c"]).run (Page.blank .tab)).1).1

theorem seamless_disturbed : disturbed.Reachable ∧
    disturbed.text = "f() \x7b\n\t\ta;\n\n\t\t(b)\n\t\x7d\n\x7b\n\td" ∧
    (disturbed.atLineStart = true ↔ disturbed.text = "" ∨ ∃ lines, disturbed.text = lines ++ "\n") ∧
    (disturbed.writeLines "e\n").writeLines "\n\nf" = disturbed.writeLines "e\n\n\nf" ∧
    (disturbed.writeLines "e\n\n\nf").text = disturbed.text ++ "e\n\n\n\tf" := by
  have hopened : disturbed.Reachable :=
    (((Page.Reachable.blank .tab).run _).run .dedent).along (.braces [.text "d"]) ⟨[_], rfl⟩
  obtain ⟨hline, -, -, hcut, -⟩ := hopened.seamless
  exact ⟨hopened, by decide +kernel, hline, hcut "e\n" "\n\nf", by decide +kernel⟩

end TypeGen.Code
