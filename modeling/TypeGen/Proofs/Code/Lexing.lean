import TypeGen.Proofs.Code.Brackets
import TypeGen.Text.Identifier
import TypeGen.Text.Quoted

/-!
Lexing. Code is read character by character: a slash may start a comment, a quote starts a literal,
and brackets count where neither is open. A text is clear when it leads from code to code and leaves
the brackets as they were; only a slash at its end may still become part of a comment.
-/

namespace TypeGen.Code

open TypeGen.Text

/-- The brackets of code. -/
def Brackets.ofCode : Brackets := ⟨[('(', ')'), ('[', ']'), ('\x7b', '\x7d')], by decide⟩

/-- What a character of code stands in. -/
inductive Mode where
  | code
  /-- Code, behind a slash that may start a comment. -/
  | slash
  | line
  | block
  /-- A block comment, behind a star that may end it. -/
  | star
  | literal
  /-- A literal, behind a backslash. -/
  | escape
  deriving DecidableEq, Repr

/-- How far code has been read: where it is, and the brackets that are due. -/
structure Lexed where
  mode : Mode
  due : List Char
  deriving DecidableEq, Repr

namespace Lexed

/-- A character of code that starts no comment. -/
def code (due : List Char) (c : Char) : Option Lexed :=
  if c = '"' then some ⟨.literal, due⟩
  else if c = '/' then some ⟨.slash, due⟩
  else (Brackets.ofCode.step due c).map (⟨.code, ·⟩)

/-- One character. A line feed has no place in a literal. -/
def step (s : Lexed) (c : Char) : Option Lexed :=
  match s.mode with
  | .code => code s.due c
  | .slash =>
    if c = '/' then some ⟨.line, s.due⟩
    else if c = '*' then some ⟨.block, s.due⟩
    else code s.due c
  | .line => some ⟨if c = '\n' then .code else .line, s.due⟩
  | .block => some ⟨if c = '*' then .star else .block, s.due⟩
  | .star => some ⟨if c = '/' then .code else if c = '*' then .star else .block, s.due⟩
  | .literal =>
    if c = '\n' then none
    else some ⟨if c = '"' then .code else if c = '\\' then .escape else .literal, s.due⟩
  | .escape => if c = '\n' then none else some ⟨.literal, s.due⟩

theorem code_newline (due : List Char) : code due '\n' = some ⟨.code, due⟩ := by
  rw [code, if_neg (by decide), if_neg (by decide), Brackets.ofCode.step_newline]; rfl

/-- With more brackets due behind those that are. -/
def owing (s : Lexed) (later : List Char) : Lexed := ⟨s.mode, s.due ++ later⟩

theorem code_owing {due : List Char} {c : Char} {s : Lexed} (h : code due c = some s)
    (later : List Char) : code (due ++ later) c = some (s.owing later) := by
  unfold code at h ⊢
  split at h
  next hc => cases h; rw [if_pos hc]; rfl
  next hc =>
    rw [if_neg hc]
    split at h
    next hs => cases h; rw [if_pos hs]; rfl
    next hs =>
      obtain ⟨due', hdue, rfl⟩ := Option.map_eq_some_iff.1 h
      rw [if_neg hs, Brackets.ofCode.step_append hdue later]; rfl

/-- Brackets that are due later do not matter. -/
theorem step_owing {s s' : Lexed} {c : Char} (h : s.step c = some s') (later : List Char) :
    (s.owing later).step c = some (s'.owing later) := by
  obtain ⟨mode, due⟩ := s
  cases mode with
  | code => exact code_owing h later
  | slash =>
    simp only [step, owing] at h ⊢
    split at h
    next hc => cases h; simp [hc]
    next hc =>
      split at h
      next hs => cases h; simp [hs]
      next hs => rw [if_neg hc, if_neg hs]; exact code_owing h later
  | line | block | star => cases h; rfl
  | literal | escape =>
    simp only [step, owing] at h ⊢
    split at h
    next => cases h
    next hc => cases h; rw [if_neg hc]

end Lexed

/-- Reads code: its comments, its literals and its brackets. -/
def lexer : Reader Lexed where
  step := Lexed.step
  margin := fun {s s'} h c hc => by
    have hrest : s'.mode = .code ∨ s'.mode = .block := by
      obtain ⟨mode, due⟩ := s
      cases mode <;> simp [Lexed.step, Lexed.code_newline] at h <;> simp [← h]
    have hne : c ≠ '"' ∧ c ≠ '/' ∧ c ≠ '*' := by rcases hc with rfl | rfl <;> decide
    obtain ⟨mode, due⟩ := s'
    rcases hrest with rfl | rfl
    · have hblank := Brackets.ofCode.rests due c hc
      simp only [Lexed.step, Lexed.code, if_neg hne.1, if_neg hne.2.1]
      rw [show Brackets.ofCode.step due c = some due from hblank]; rfl
    · simp [Lexed.step, hne.2.2]

example : lexer.read ⟨.code, []⟩ "f(\"\\\")\"); /* \" */".toList = some ⟨.code, []⟩ := by decide
example : lexer.read ⟨.code, []⟩ "f(\"\n\")".toList = none := by decide

theorem lexer_step (s : Lexed) (c : Char) : lexer.step s c = s.step c := rfl

theorem lexer_owing {cs : List Char} : ∀ {s s' : Lexed}, lexer.read s cs = some s' →
    ∀ later, lexer.read (s.owing later) cs = some (s'.owing later) := by
  induction cs with
  | nil => intro s s' h later; cases h; rfl
  | cons c cs ih =>
    intro s s' h later
    rw [Reader.read_cons] at h ⊢
    obtain ⟨next, hnext, h⟩ := Option.bind_eq_some_iff.1 h
    exact Option.bind_eq_some_iff.2 ⟨_, Lexed.step_owing hnext later, ih h later⟩

/-! ### Clear texts -/

/-- Code, perhaps behind a slash. -/
def InCode (due : List Char) (s : Lexed) : Prop := s = ⟨.code, due⟩ ∨ s = ⟨.slash, due⟩

/-- What comes behind a slash does not make a comment of it. -/
def StartsNoComment (cs : List Char) : Prop := cs.head? ≠ some '/' ∧ cs.head? ≠ some '*'

instance (cs : List Char) : Decidable (StartsNoComment cs) := inferInstanceAs (Decidable (_ ∧ _))

theorem InCode.read {due : List Char} {s : Lexed} (h : InCode due s) {cs : List Char}
    (hne : cs ≠ [])
    (hcs : StartsNoComment cs) : lexer.read s cs = lexer.read ⟨.code, due⟩ cs := by
  obtain ⟨c, cs, rfl⟩ := List.exists_cons_of_ne_nil hne
  obtain ⟨hslash, hstar⟩ := hcs
  simp only [List.head?_cons, ne_eq, Option.some.injEq] at hslash hstar
  rcases h with rfl | rfl
  · rfl
  · simp only [Reader.read_cons, lexer_step, Lexed.step, if_neg hslash, if_neg hstar]

theorem InCode.owing {s : Lexed} (h : InCode [] s) (due : List Char) :
    InCode due (s.owing due) := by
  rcases h with rfl | rfl
  · exact .inl rfl
  · exact .inr rfl

/-- Texts that are complete as code. -/
def Clear (t : String) : Prop := ∃ s, lexer.read ⟨.code, []⟩ t.toList = some s ∧ InCode [] s

theorem Clear.read {t : String} (h : Clear t) (due : List Char) :
    ∃ s, lexer.read ⟨.code, due⟩ t.toList = some s ∧ InCode due s := by
  obtain ⟨s, hs, hin⟩ := h
  exact ⟨s.owing due, lexer_owing hs due, hin.owing due⟩

theorem clear_empty : Clear "" := ⟨_, rfl, .inl rfl⟩

/-- Only a slash leads behind a slash. -/
theorem Lexed.mode_of_step {s s' : Lexed} {c : Char} (h : s.step c = some s') (hc : c ≠ '/') :
    s'.mode ≠ .slash := by
  have hcode : ∀ {due}, Lexed.code due c = some s' → s'.mode ≠ .slash := fun h => by
    rw [Lexed.code, if_neg hc] at h
    split at h
    next => cases h; simp
    next =>
      obtain ⟨_, -, rfl⟩ := Option.map_eq_some_iff.1 h
      simp
  obtain ⟨mode, due⟩ := s
  cases mode with
  | code => exact hcode h
  | slash =>
    simp only [step, if_neg hc] at h
    split at h
    next => cases h; simp
    next => exact hcode h
  | line | block => cases h; dsimp only; split <;> simp
  | star =>
    cases h
    dsimp only
    split
    · simp
    · split <;> simp
  | literal =>
    simp only [step] at h
    split at h
    next => cases h
    next =>
      cases h
      dsimp only
      split
      · simp
      · split <;> simp
  | escape =>
    simp only [step] at h
    split at h
    next => cases h
    next => cases h; simp

/-- Behind a clear text that ends with anything but a slash there is no comment to come. -/
theorem Clear.read_of_last {t : String} (h : Clear t) {c : Char} (hlast : t.toList.getLast? = some c)
    (hc : c ≠ '/') (due : List Char) : lexer.read ⟨.code, due⟩ t.toList = some ⟨.code, due⟩ := by
  obtain ⟨s, hs, hin⟩ := h.read due
  obtain ⟨ys, hys⟩ := List.getLast?_eq_some_iff.1 hlast
  rw [hys, Reader.read_append] at hs
  obtain ⟨mid, -, hmid⟩ := Option.bind_eq_some_iff.1 hs
  rw [Reader.read_cons] at hmid
  obtain ⟨s', hstep, hs'⟩ := Option.bind_eq_some_iff.1 hmid
  cases hs'
  rcases hin with rfl | rfl
  · rw [hys, Reader.read_append]; exact hs
  · exact absurd rfl (Lexed.mode_of_step hstep hc)

/-! ### Literals -/

/-- Characters that neither end a literal nor escape from it. -/
def Unquoted (t : String) : Prop := ∀ c ∈ t.toList, c ≠ '"' ∧ c ≠ '\\' ∧ c ≠ '\n'

theorem Unquoted.read_literal {t : String} (h : Unquoted t) (due : List Char) :
    lexer.read ⟨.literal, due⟩ t.toList = some ⟨.literal, due⟩ :=
  lexer.read_of_idle fun c hc => by
    obtain ⟨hquote, hescape, hline⟩ := h c hc
    simp only [lexer_step, Lexed.step, if_neg hquote, if_neg hescape, if_neg hline]

theorem Unquoted.read_line {t : String} (h : Unquoted t) (due : List Char) :
    lexer.read ⟨.line, due⟩ t.toList = some ⟨.line, due⟩ :=
  lexer.read_of_idle fun c hc => by simp only [lexer_step, Lexed.step, if_neg (h c hc).2.2]

theorem read_escape (c : Char) (due : List Char) :
    lexer.read ⟨.literal, due⟩ (Quoted.escape c) = some ⟨.literal, due⟩ := by
  by_cases h : c ∈ ['"', '\\', '\n', '\t']
  · simp only [List.mem_cons, List.not_mem_nil, or_false] at h
    rcases h with rfl | rfl | rfl | rfl <;> rfl
  · simp only [List.mem_cons, List.not_mem_nil, or_false, not_or] at h
    obtain ⟨hquote, hescape, hline, htab⟩ := h
    have hself : Quoted.escape c = [c] := by
      unfold Quoted.escape
      split <;> first | rfl | contradiction
    have hplain : Unquoted (String.ofList [c]) := fun d hd => by
      rw [String.toList_ofList, List.mem_singleton] at hd
      exact hd ▸ ⟨hquote, hescape, hline⟩
    rw [hself]
    simpa using hplain.read_literal due

/-- A text that is written as a literal stays inside of it. -/
theorem clear_literal (t : String) : Clear (Quoted.literal t) := by
  have hinside : ∀ cs : List Char,
      lexer.read ⟨.literal, []⟩ (cs.flatMap Quoted.escape) = some ⟨.literal, []⟩ := fun cs => by
    induction cs with
    | nil => rfl
    | cons c cs ih => rw [List.flatMap_cons, lexer.read_append_of (read_escape c [])]; exact ih
  refine ⟨⟨.code, []⟩, ?_, .inl rfl⟩
  rw [Quoted.literal, String.toList_ofList, Quoted.encode, Reader.read_cons]
  change lexer.read ⟨.literal, []⟩ _ = _
  rw [lexer.read_append_of (hinside _)]
  rfl

/-! ### Fragments -/

/-- Fragments of code that start neither literals nor comments and whose brackets match. -/
structure IsFragment (t : String) : Prop where
  unquoted : Unquoted t
  line : ¬ ['/', '/'] <:+: t.toList
  block : ¬ ['/', '*'] <:+: t.toList
  balanced : Brackets.ofCode.IsBalanced t

theorem isFragment_ofList {cs : List Char} (h : cs.all (fun c => c ≠ '"' ∧ c ≠ '\\' ∧ c ≠ '\n') ∧
    ¬ ['/', '/'] <:+: cs ∧ ¬ ['/', '*'] <:+: cs ∧ Brackets.ofCode.reader.read [] cs = some []) :
    IsFragment (String.ofList cs) := by
  rw [← String.toList_ofList (l := cs)] at h
  exact ⟨by simpa [Unquoted] using h.1, h.2.1, h.2.2.1, h.2.2.2⟩

/-- What has no brackets in it can be taken off at either end. -/
theorem isFragment_of_split {t : String} (h : IsFragment t) {before cs after : List Char}
    (ht : t.toList = before ++ cs ++ after)
    (hb : ∀ c ∈ before ++ after, Brackets.ofCode.contains c = false) :
    IsFragment (String.ofList cs) := by
  have hpart : cs <:+: t.toList := ⟨before, after, ht.symm⟩
  have hidle : ∀ {ds due}, (∀ c ∈ ds, Brackets.ofCode.contains c = false) →
      Brackets.ofCode.reader.read due ds = some due := fun hds =>
    Brackets.ofCode.reader.read_of_idle fun c hc => Brackets.ofCode.step_of_contains (hds c hc) _
  have hbalanced := h.balanced
  rw [Brackets.IsBalanced, ht, List.append_assoc, Reader.read_append_of _ (hidle fun c hc =>
    hb c (List.mem_append_left _ hc)), Reader.read_append] at hbalanced
  obtain ⟨due, hdue, hafter⟩ := Option.bind_eq_some_iff.1 hbalanced
  rw [hidle fun c hc => hb c (List.mem_append_right _ hc)] at hafter
  refine isFragment_ofList ⟨by simpa using fun c hc => h.unquoted c (hpart.subset hc),
    fun h0 => h.line (h0.trans hpart), fun h0 => h.block (h0.trans hpart), ?_⟩
  rw [hdue, Option.some.inj hafter]

/-- Without quotes and comments the brackets are all that is read. -/
theorem inCode_of_read : ∀ {cs : List Char} {s : Lexed} {due due' : List Char}, InCode due s →
    (∀ c ∈ cs, c ≠ '"') → (s.mode = .slash → StartsNoComment cs) →
    ¬ ['/', '/'] <:+: cs → ¬ ['/', '*'] <:+: cs → Brackets.ofCode.reader.read due cs = some due' →
    ∃ s', lexer.read s cs = some s' ∧ InCode due' s'
  | [], s, _, _, hs, _, _, _, _, h => by cases h; exact ⟨s, rfl, hs⟩
  | c :: cs, s, due, due', hs, hquote, hstart, hline, hblock, h => by
    have hc := hquote c (List.mem_cons_self ..)
    have hread : lexer.read s (c :: cs) = (Lexed.code due c).bind (lexer.read · cs) := by
      rcases hs with rfl | rfl
      · rfl
      · rw [InCode.read (.inr rfl) (by simp) (hstart rfl)]; rfl
    have hlater : ∀ c ∈ cs, c ≠ '"' := fun c hc => hquote c (List.mem_cons_of_mem _ hc)
    rw [List.infix_cons_iff, not_or] at hline hblock
    rw [Reader.read_cons] at h
    obtain ⟨next, hnext, h⟩ := Option.bind_eq_some_iff.1 h
    rw [hread, Lexed.code, if_neg hc]
    by_cases hslash : c = '/'
    · subst hslash
      have hkeep : next = due := by
        have hbare : Brackets.ofCode.step due '/' = some due :=
          Brackets.ofCode.step_of_contains (by decide) due
        exact (Option.some.inj (hbare.symm.trans hnext)).symm
      -- neither kind of comment starts here
      have hstarts : StartsNoComment cs := by
        refine ⟨fun hhead => hline.1 ?_, fun hhead => hblock.1 ?_⟩
        all_goals
          obtain ⟨rest, rfl⟩ := List.head?_eq_some_iff.1 hhead
          exact ⟨rest, rfl⟩
      rw [if_pos rfl]
      exact inCode_of_read (.inr rfl) hlater (fun _ => hstarts) hline.2 hblock.2 (hkeep ▸ h)
    · rw [if_neg hslash, show Brackets.ofCode.step due c = some next from hnext]
      exact inCode_of_read (.inl rfl) hlater (fun h0 => by cases h0) hline.2 hblock.2 h

theorem IsFragment.clear {t : String} (h : IsFragment t) : Clear t :=
  inCode_of_read (.inl rfl) (fun c hc => (h.unquoted c hc).1) (fun h0 => by cases h0) h.line h.block
    h.balanced

/-- Letters, digits and underscores. -/
theorem isFragment_of_word {t : String} (h : ∀ c ∈ t.toList, isWordChar c = true) : IsFragment t where
  unquoted c hc := by
    have := h c hc
    refine ⟨?_, ?_, ?_⟩ <;> rintro rfl <;> revert this <;> decide
  line hpart := absurd (h '/' (hpart.subset (by simp))) (by decide)
  block hpart := absurd (h '/' (hpart.subset (by simp))) (by decide)
  balanced := by
    refine Brackets.Spares.isBalanced fun c hc => Bool.eq_false_iff.2 fun hcontains => ?_
    rw [Brackets.contains, List.any_eq_true] at hcontains
    obtain ⟨pair, hp, heq⟩ := hcontains
    rw [Bool.or_eq_true, decide_eq_true_eq, decide_eq_true_eq] at heq
    simp only [Brackets.ofCode, List.mem_cons, List.not_mem_nil, or_false] at hp
    have hword := h c hc
    rcases hp with rfl | rfl | rfl
    all_goals rcases heq with rfl | rfl <;> revert hword <;> decide

end TypeGen.Code
