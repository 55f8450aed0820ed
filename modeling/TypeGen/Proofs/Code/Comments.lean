import TypeGen.Code.Step
import TypeGen.Proofs.Text.Splitting

/-!
Comments. In the text of a comment every end of a comment is taken apart, and no line of it has one
that was not there.
-/

namespace TypeGen.Code

open TypeGen.Text

theorem head?_openComment (cs : List Char) : (openComment cs).head? = cs.head? := by
  fun_cases openComment cs <;> rfl

/-- No end of a comment is left. -/
theorem not_infix_openComment (cs : List Char) : ¬ ['*', '/'] <:+: openComment cs := by
  fun_induction openComment cs with
  | case1 cs ih =>
    simp only [List.infix_cons_iff, List.cons_prefix_cons]
    simp [ih]
  | case2 c cs h ih =>
    rw [List.infix_cons_iff, not_or]
    refine ⟨fun hp => ?_, ih⟩
    obtain ⟨rfl, rest, hrest⟩ := List.cons_prefix_cons.1 hp
    -- the slash would have been there before
    have hhead := head?_openComment cs
    rw [← hrest] at hhead
    cases cs with
    | nil => cases hhead
    | cons d ds => exact h ds rfl (by rw [Option.some.inj hhead.symm])
  | case3 => simp

theorem mem_openComment {c : Char} (cs : List Char) (h : c ∈ openComment cs) : c ∈ cs ∨ c = ' ' := by
  fun_induction openComment cs with
  | case1 cs ih => simp only [List.mem_cons] at h ⊢; tauto
  | case2 d cs _ ih => simp only [List.mem_cons] at h ⊢; tauto
  | case3 => exact .inl h

/-- The lines that a comment is made from. -/
theorem infix_of_comment {text : String} {line : List Char}
    (h : line ∈ lines (trimEnd (openComment text.toList))) :
    trimEnd line <:+: openComment text.toList ∧ '\n' ∉ trimEnd line := by
  obtain ⟨hpart, hn⟩ := infix_of_mem_lines h
  have hline := prefix_trimEnd line
  exact ⟨hline.isInfix.trans (hpart.trans (prefix_trimEnd _).isInfix), fun hc => hn (hline.subset hc)⟩

end TypeGen.Code
