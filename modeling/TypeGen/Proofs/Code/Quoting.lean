import TypeGen.Code.Step
import TypeGen.Proofs.Code.Writing
import TypeGen.Proofs.Text.Literal

/-!
Quoting. A literal says by itself where it ends, so it is read back from any text that it stands in; and
it is all on one line, so on a page nothing comes into it.
-/

namespace TypeGen.Text.Quoted

/-- No line ends inside of a literal. -/
theorem notMem_literal (s : String) : '\n' ∉ (literal s).toList := by
  have hescape : ∀ c, '\n' ∉ escape c := fun c => by
    fun_cases escape c
    case case5 _ _ hfeed _ => simpa using fun h => hfeed h.symm
    all_goals decide
  rw [literal, String.toList_ofList, encode]
  simp [hescape]

theorem literal_ne_nil (s : String) : (literal s).toList ≠ [] := by
  rw [literal, String.toList_ofList, encode]
  simp

/-- Texts that start with literals are equal only if what is denoted and what follows are. -/
theorem literal_append_eq_iff {s s' t t' : String} :
    literal s ++ t = literal s' ++ t' ↔ s = s' ∧ t = t' := by
  constructor
  · intro h
    have hread := read?_literal s t
    rw [h, read?_literal s' t'] at hread
    obtain ⟨rfl, rfl⟩ := Prod.mk.inj (Option.some.inj hread)
    exact ⟨rfl, rfl⟩
  · rintro ⟨rfl, rfl⟩
    rfl

end TypeGen.Text.Quoted

namespace TypeGen.Code

open TypeGen.Text

/-! ### Literals on a page -/

theorem text_write_literal (p : Page) (s : String) :
    (p.write (Quoted.literal s)).text = p.text ++ p.lead ++ Quoted.literal s := by
  rw [write_word p (Quoted.notMem_literal s) (Quoted.literal_ne_nil s)]

theorem runAll_line_append (before after : String) (p : Page) :
    runAll (strokesOfLine (before ++ after)) p = runAll (strokesOfLine after) (p.write before) := by
  show ((p.write (before ++ after)).newline, Ending.done) = _
  rw [write_append]; rfl

/-- A literal stands in a line of a page as it is, whatever is in front of it and behind it. -/
theorem exists_text_line_literal (before s after : String) (p : Page) : ∃ rest,
    ((Step.line (before ++ Quoted.literal s ++ after)).run p).1.text =
      (p.write before).text ++ (p.write before).lead ++ Quoted.literal s ++ rest := by
  obtain ⟨rest, hrest⟩ :=
    exists_text_runAll (strokesOfLine after) ((p.write before).write (Quoted.literal s))
  refine ⟨rest, ?_⟩
  rw [Step.run, Step.strokes, runAll_line_append, write_append, hrest, text_write_literal]

/-- A literal is read up to its closing quote, whatever it denotes and whatever follows, and denotes the
text that it was made from; so no two texts have one literal, not even in front of other texts. On a page
it is a line of its own as it is, and as it is it stands in any other line. -/
theorem literal_read_back (s t : String) :
    Quoted.read? (Quoted.literal s ++ t) = some (s, t) ∧
    (∀ s' t', Quoted.literal s ++ t = Quoted.literal s' ++ t' ↔ s = s' ∧ t = t') ∧
    (∀ p : Page, (Step.line (Quoted.literal s)).run p =
      (⟨p.indent, p.level, p.text ++ p.lead ++ Quoted.literal s ++ "\n", true⟩, .done)) ∧
    ∀ (before after : String) (p : Page), ∃ rest,
      ((Step.line (before ++ Quoted.literal s ++ after)).run p).1.text =
        (p.write before).text ++ (p.write before).lead ++ Quoted.literal s ++ rest := by
  refine ⟨Quoted.read?_literal s t, fun s' t' => Quoted.literal_append_eq_iff, fun p => ?_,
    fun before after p => exists_text_line_literal before s after p⟩
  have hline := newline_write (p := p) (Quoted.notMem_literal s) (Quoted.literal_ne_nil s)
  show ((p.write (Quoted.literal s)).newline, Ending.done) = _
  rw [hline]
  rfl

example : Quoted.read? "\"a\\\\\" + \"b\"" = some ("a\\", " + \"b\"") ∧
    Quoted.read? "\"a\n\"" = none := by decide

end TypeGen.Code
