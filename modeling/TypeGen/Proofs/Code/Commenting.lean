import Mathlib.Data.List.DropRight
import TypeGen.Proofs.Code.Annotating

/-!
Commenting. Whatever a comment says, on a page it goes from its first line to its last one: the end of a
comment stands nowhere in between, not within a line and not across lines, and no line ends in a blank.
-/

namespace TypeGen.Code

open TypeGen.Text

/-! ### Ends of comments -/

theorem not_infix_cons {c : Char} {cs : List Char} (hc : c ≠ '*') (h : ¬ ['*', '/'] <:+: cs) :
    ¬ ['*', '/'] <:+: c :: cs := by
  rw [List.infix_cons_iff, not_or]
  refine ⟨fun hp => ?_, h⟩
  obtain ⟨heq, -⟩ := List.cons_prefix_cons.1 hp
  exact hc heq.symm

theorem not_infix_append {xs ys : List Char} (hxs : ∀ c ∈ xs, c ≠ '*') (h : ¬ ['*', '/'] <:+: ys) :
    ¬ ['*', '/'] <:+: xs ++ ys := by
  induction xs with
  | nil => exact h
  | cons x xs ih =>
    obtain ⟨hx, hrest⟩ := List.forall_mem_cons.1 hxs
    exact not_infix_cons hx (ih hrest)

/-- The end of a comment does not go across a line feed. -/
theorem not_infix_line {xs ys : List Char} (hxs : ¬ ['*', '/'] <:+: xs) (hys : ¬ ['*', '/'] <:+: ys) :
    ¬ ['*', '/'] <:+: xs ++ '\n' :: ys := by
  induction xs with
  | nil => exact not_infix_cons (by decide) hys
  | cons x xs ih =>
    rw [List.infix_cons_iff, not_or] at hxs
    rw [List.cons_append, List.infix_cons_iff, not_or]
    refine ⟨fun hp => hxs.1 ?_, ih hxs.2⟩
    obtain ⟨rfl, hslash⟩ := List.cons_prefix_cons.1 hp
    cases xs with
    | nil => exact absurd (List.cons_prefix_cons.1 hslash).1 (by decide)
    | cons y xs =>
      obtain ⟨rfl, -⟩ := List.cons_prefix_cons.1 hslash
      exact ⟨xs, rfl⟩

theorem not_infix_lines {block : List (List Char)} {last : List Char}
    (hblock : ∀ line ∈ block, ¬ ['*', '/'] <:+: line) (hlast : ¬ ['*', '/'] <:+: last) :
    ¬ ['*', '/'] <:+: block.flatMap (· ++ ['\n']) ++ last := by
  induction block with
  | nil => exact hlast
  | cons line block ih =>
    obtain ⟨hline, hrest⟩ := List.forall_mem_cons.1 hblock
    have hlater := not_infix_line hline (ih hrest)
    simpa using hlater

/-- A text that holds no end of a comment up to the star of its last line has one, at its end. -/
theorem occurs_once {body : List Char} (h : ¬ ['*', '/'] <:+: body ++ ['*']) (n : Nat) :
    ['*', '/'] <+: (body ++ ['*', '/', '\n']).drop n ↔ n + 3 = (body ++ ['*', '/', '\n']).length := by
  have hlength : (body ++ ['*', '/', '\n']).length = body.length + 3 := by simp
  rw [hlength]
  constructor
  · intro hp
    by_contra hn
    rcases Nat.lt_or_gt_of_ne (show n ≠ body.length by omega) with hlt | hgt
    · -- ahead of the end the occurrence would stand in the body and the star
      have hdrop : (body ++ ['*', '/', '\n']).drop n = (body ++ ['*']).drop n ++ ['/', '\n'] := by
        rw [← List.drop_append_of_le_length (by simp; omega)]; simp
      have hshort : ['*', '/'].length ≤ ((body ++ ['*']).drop n).length := by simp; omega
      rw [hdrop] at hp
      have hinside := List.prefix_of_prefix_length_le hp (List.prefix_append ..) hshort
      exact h (hinside.isInfix.trans (List.drop_suffix n _).isInfix)
    · have hdrop : (body ++ ['*', '/', '\n']).drop n = ['/', '\n'].drop (n - body.length - 1) := by
        rw [List.drop_append, List.drop_of_length_le (by omega)]
        obtain ⟨k, hk⟩ := Nat.exists_eq_add_of_lt hgt
        simp [hk, Nat.add_assoc]
      rw [hdrop] at hp
      have hall : ∀ k, ¬ ['*', '/'] <+: ['/', '\n'].drop k := by
        intro k
        match k with
        | 0 | 1 => decide
        | k + 2 => simp
      exact hall _ hp
  · intro hn
    obtain rfl : n = body.length := by omega
    rw [List.drop_left]
    exact ⟨['\n'], rfl⟩

/-! ### Lines of comments -/

theorem getLast?_trimEnd {cs : List Char} {c : Char} (h : (trimEnd cs).getLast? = some c) :
    isBlank c = false := by
  have hne : trimEnd cs ≠ [] := by
    rintro hnil
    rw [hnil] at h
    cases h
  have hlast : ¬ isBlank ((trimEnd cs).getLast hne) = true := List.rdropWhile_last_not isBlank cs hne
  rw [List.getLast?_eq_some_getLast hne] at h
  rwa [Option.some.inj h, Bool.not_eq_true] at hlast

/-- No line of a comment ends in a blank. -/
theorem getLast?_of_mem_commentLines {text line : String} (h : line ∈ commentLines text) {c : Char}
    (hc : line.toList.getLast? = some c) : isBlank c = false := by
  simp only [commentLines, List.mem_append, List.mem_singleton, List.mem_map] at h
  rcases h with (rfl | ⟨inner, -, rfl⟩) | rfl
  · cases hc; decide
  · rw [commentLine] at hc
    split at hc
    next => cases hc; decide
    next hne =>
      rw [String.toList_append, String.toList_ofList (l := trimEnd inner),
        List.getLast?_append_of_ne_nil _ hne] at hc
      exact getLast?_trimEnd hc
  · cases hc; decide

/-- The text's own ends of comments are taken apart, and the star in front of a line has a blank behind
it. -/
theorem not_infix_commentLine {text : String} {line : List Char}
    (h : line ∈ lines (trimEnd (openComment text.toList))) :
    ¬ ['*', '/'] <:+: (commentLine line).toList := by
  have hpart : ¬ ['*', '/'] <:+: trimEnd line := fun hpart =>
    not_infix_openComment _ (hpart.trans (infix_of_comment h).1)
  rw [commentLine]
  split
  · decide
  · rw [String.toList_append, String.toList_ofList]
    simpa [List.infix_cons_iff] using hpart

/-- A comment up to the star of its last line. -/
theorem exists_body_commentBlock {margin : String} (hmargin : ∀ c ∈ margin.toList, c = ' ' ∨ c = '\t')
    (text : String) : ∃ body, (commentBlock margin text).flatMap (· ++ ['\n']) = body ++ ['*', '/', '\n'] ∧
      ¬ ['*', '/'] <:+: body ++ ['*'] := by
  have hstar : ∀ c ∈ margin.toList, c ≠ '*' := fun c hc => by
    rcases hmargin c hc with rfl | rfl <;> decide
  let front := (margin.toList ++ "/**".toList) ::
    (lines (trimEnd (openComment text.toList))).map fun line => margin.toList ++ (commentLine line).toList
  have hfront : ∀ line ∈ front, ¬ ['*', '/'] <:+: line := by
    refine List.forall_mem_cons.2 ⟨not_infix_append hstar (by decide), List.forall_mem_map.2 ?_⟩
    intro line hline
    exact not_infix_append hstar (not_infix_commentLine hline)
  have hlast : ¬ ['*', '/'] <:+: margin.toList ++ [' ', '*'] := not_infix_append hstar (by decide)
  refine ⟨front.flatMap (· ++ ['\n']) ++ margin.toList ++ [' '], ?_, ?_⟩
  · simp [front, commentBlock, commentLines, List.flatMap_map, Function.comp_def]
  · have hbody := not_infix_lines hfront hlast
    simpa using hbody

/-! ### Comments on pages -/

/-- A comment ends the line that has begun and adds its own lines behind the margin. They start with the
opening of a comment and have its end once, in front of the last line feed; none of them ends in a blank,
and the page is at the start of a line at its old level. -/
theorem doc_closed_once (text : String) (p : Page) : ∃ added,
    (Step.doc text).run p =
      (⟨p.indent, p.level, p.text ++ (if p.atLineStart then "" else "\n") ++ added, true⟩, .done) ∧
    splitAt '\n' added.toList =
      (commentLines text).map (fun line => p.margin.toList ++ line.toList) ++ [[]] ∧
    (p.margin ++ "/**\n").toList <+: added.toList ∧
    added.toList.getLast? = some '\n' ∧
    (∀ n, ['*', '/'] <+: added.toList.drop n ↔ n + 3 = added.toList.length) ∧
    ∀ line ∈ splitAt '\n' added.toList, ∀ c, line.getLast? = some c → isBlank c = false := by
  have hmargin : ∀ c ∈ p.margin.toList, c = ' ' ∨ c = '\t' := fun c hc => Reader.mem_margin hc
  have hsplit : splitAt '\n' ((commentBlock p.margin text).flatMap (· ++ ['\n'])) =
      commentBlock p.margin text ++ [[]] :=
    splitAt_append_lines (show splitAt '\n' [] = [] ++ [[]] from rfl) (notMem_commentBlock hmargin text)
  obtain ⟨body, hbody, honce⟩ := exists_body_commentBlock hmargin text
  refine ⟨String.ofList ((commentBlock p.margin text).flatMap (· ++ ['\n'])), ?_, ?_, ?_, ?_, ?_, ?_⟩
  · have hfresh : p.freshLine = ⟨p.indent, p.level, p.text ++ (if p.atLineStart then "" else "\n"), true⟩ := by
      rw [Page.freshLine]
      split
      next h => simp [← h]
      next h => simp [Page.newline, Page.put, ← String.toList_inj]
    have hlines : ∀ line ∈ commentLines text, '\n' ∉ line.toList ∧ line.toList ≠ [] :=
      fun _ => notMem_commentLines
    have hrun := runAll_lines hlines (atLineStart_freshLine p)
    rw [hfresh] at hrun
    rw [Step.run, Step.strokes, runAll, Stroke.run, hfresh]
    exact hrun
  · rw [String.toList_ofList]
    exact hsplit
  · obtain ⟨rest, hrest⟩ : ∃ rest, commentBlock p.margin text =
        (p.margin.toList ++ "/**".toList) :: rest := ⟨_, rfl⟩
    exact ⟨rest.flatMap (· ++ ['\n']), by simp [hrest]⟩
  · rw [String.toList_ofList, hbody]
    simp
  · intro n
    rw [String.toList_ofList, hbody]
    exact occurs_once honce n
  · intro line hline c hc
    rw [String.toList_ofList, hsplit] at hline
    simp only [commentBlock, List.mem_append, List.mem_map, List.mem_singleton] at hline
    rcases hline with ⟨inner, hinner, rfl⟩ | rfl
    · rw [List.getLast?_append_of_ne_nil _ (notMem_commentLines hinner).2] at hc
      exact getLast?_of_mem_commentLines hinner hc
    · cases hc

/-- Ends of comments within a line, across a line feed and behind the star of a line, in a line that has
begun. -/
theorem doc_closed_once_hostile : ∃ added,
    (Step.doc "**//  \n \n*\n/ ").run ⟨.tab, 1, "x", false⟩ = (⟨.tab, 1, "x\n" ++ added, true⟩, .done) ∧
    added = "\t/**\n\t * ** //\n\t *\n\t * *\n\t * /\n\t */\n" ∧
    (∀ n, ['*', '/'] <+: added.toList.drop n ↔ n + 3 = 36) ∧ isBlank '/' = false := by
  obtain ⟨added, hrun, hlines, -, -, honce, hblank⟩ :=
    doc_closed_once "**//  \n \n*\n/ " ⟨.tab, 1, "x", false⟩
  have hadded : added = "\t/**\n\t * ** //\n\t *\n\t * *\n\t * /\n\t */\n" := by
    rw [← String.toList_inj, ← intercalate_splitAt '\n' added.toList, hlines]
    decide
  have hlength : added.toList.length = 36 := by rw [hadded]; decide
  refine ⟨added, hrun, hadded, fun n => by rw [honce, hlength], ?_⟩
  exact hblank "\t * ** //".toList (by rw [hlines]; decide) '/' (by decide)

end TypeGen.Code
