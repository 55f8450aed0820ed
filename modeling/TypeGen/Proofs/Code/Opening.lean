import TypeGen.Proofs.Code.Annotating
import TypeGen.Proofs.Code.Wording

/-!
Opening. A line that opens a comment has nothing on it but blanks and the opening. Code is written in
texts that have other characters in them, so as long as no line feed comes from elsewhere no line of it
opens a comment.
-/

namespace TypeGen.Code

open TypeGen.Text

/-! ### Lines -/

theorem exists_of_opensComment {line : List Char} (h : opensComment line = true) :
    ∃ blanks, line = blanks ++ ['/', '*', '*'] ∧ ∀ c ∈ blanks, c = ' ' ∨ c = '\t' := by
  have hrest : withoutBlanks line = ['/', '*', '*'] := by simpa [opensComment] using h
  refine ⟨line.takeWhile fun c => c = ' ' || c = '\t', ?_, fun c hc => ?_⟩
  · rw [← hrest, withoutBlanks, List.takeWhile_append_dropWhile]
  · simpa using List.mem_takeWhile_imp hc

theorem opensComment_of_ink {line : List Char} (h : line.any isInk = true) :
    opensComment line = false := by
  refine Bool.eq_false_iff.2 fun hopen => ?_
  obtain ⟨c, hc, hink⟩ := List.any_eq_true.1 h
  obtain ⟨blanks, rfl, hblanks⟩ := exists_of_opensComment hopen
  have hmem : c ∈ [' ', '\t', '\n', '/', '*'] := by
    rcases List.mem_append.1 hc with hc | hc
    · rcases hblanks c hc with rfl | rfl <;> simp
    · simp at hc ⊢; tauto
  simp [isInk, hmem] at hink

/-- Behind an opening there is nothing. -/
theorem opensComment_concat_blank (line : List Char) : opensComment (line ++ [' ']) = false := by
  refine Bool.eq_false_iff.2 fun hopen => ?_
  obtain ⟨blanks, hline, -⟩ := exists_of_opensComment hopen
  have hlast := congrArg List.getLast? hline
  simp at hlast

/-- Ahead of an opening there are blanks. -/
theorem opensComment_of_not_infix {blanks line : List Char} (hblanks : ∀ c ∈ blanks, c = ' ' ∨ c = '\t')
    (h : ¬ ['/', '*'] <:+: line) : opensComment (blanks ++ line) = false := by
  refine Bool.eq_false_iff.2 fun hopen => ?_
  rw [opensComment, withoutBlanks_append hblanks] at hopen
  obtain ⟨front, rfl, -⟩ := exists_of_opensComment hopen
  exact h ⟨front, ['*'], by simp⟩

/-! ### Pages -/

/-- No line of the page opens a comment. -/
structure Page.IsUncommented (p : Page) : Prop where
  tidy : p.IsTidy
  lines : ∀ line ∈ splitAt '\n' p.text.toList, opensComment line = false

theorem isUncommented_blank (i : Indent) : (Page.blank i).IsUncommented :=
  ⟨isTidy_blank i, by simp [Page.blank, splitAt, opensComment, withoutBlanks]⟩

namespace Page.IsUncommented

variable {p : Page}

/-- A word, from what it makes of the line that it is written on. -/
theorem word (h : p.IsUncommented) {t : String} (hn : '\n' ∉ t.toList)
    (hopen : ∀ line, (p.atLineStart = true → ∀ c ∈ line, c = ' ' ∨ c = '\t') →
      opensComment (line ++ t.toList) = false) : (p.write t).IsUncommented := by
  refine ⟨h.tidy.write t, ?_⟩
  by_cases hne : t.toList = []
  · rw [Page.write, hne]
    exact h.lines
  · obtain ⟨before, line, hlines⟩ := exists_splitAt_eq_concat '\n' p.text.toList
    have hlead : ∀ c ∈ p.lead.toList, c = ' ' ∨ c = '\t' := by
      intro c hc
      rw [Page.lead] at hc
      split at hc
      · exact Reader.mem_margin hc
      · simp at hc
    have hword : '\n' ∉ p.lead.toList ++ t.toList := by
      intro hmem
      rcases List.mem_append.1 hmem with hmem | hmem
      · rcases hlead _ hmem with h | h <;> cases h
      · exact hn hmem
    have hstart : p.atLineStart = true → ∀ c ∈ line ++ p.lead.toList, c = ' ' ∨ c = '\t' := by
      intro hstart
      have hempty : line = [] := by
        rw [← List.isEmpty_iff, isEmpty_lastLine hlines, ← h.tidy, hstart]
      simpa [hempty] using hlead
    have hold := h.lines
    rw [hlines, List.forall_mem_append] at hold
    rw [write_word p hn hne, String.toList_append, String.toList_append, List.append_assoc,
      splitAt_append_word hlines hword, ← List.append_assoc]
    refine List.forall_mem_append.2 ⟨hold.1, ?_⟩
    simpa using hopen _ hstart

theorem newline (h : p.IsUncommented) : p.newline.IsUncommented := by
  refine ⟨isTidy_put p '\n', ?_⟩
  have htext : p.newline.text.toList = p.text.toList ++ ['\n'] := by simp [Page.newline, Page.put]
  rw [htext, splitAt_concat]
  exact List.forall_mem_append.2 ⟨h.lines, by decide⟩

theorem freshLine (h : p.IsUncommented) : p.freshLine.IsUncommented := by
  rw [Page.freshLine]
  split
  · exact h
  · exact h.newline

theorem of_level (h : p.IsUncommented) (n : Nat) : Page.IsUncommented { p with level := n } :=
  ⟨h.tidy, h.lines⟩

end Page.IsUncommented

/-! ### Texts -/

/-- A text that may be written anywhere. -/
def IsInert (t : String) : Prop := ∀ p : Page, p.IsUncommented → (p.write t).IsUncommented

theorem inert_of_ink {t : String} (hn : '\n' ∉ t.toList) (hink : HasInk t) : IsInert t := by
  intro p hp
  refine hp.word hn fun line _ => opensComment_of_ink ?_
  rw [List.any_append, Bool.or_eq_true]
  exact .inr hink

theorem inert_empty : IsInert "" := fun _ hp => hp

theorem inert_newline : IsInert "\n" := fun _ hp => hp.newline

theorem inert_blank : IsInert " " := fun _ hp =>
  hp.word (by decide) fun line _ => opensComment_concat_blank line

/-- A text with a line feed at its end. -/
theorem inert_line {t u : String} (hn : '\n' ∉ t.toList) (hink : HasInk t)
    (hu : u.toList = t.toList ++ ['\n']) : IsInert u := by
  have hsplit : u = t ++ "\n" := by rw [← String.toList_inj, String.toList_append, hu]; rfl
  intro p hp
  rw [hsplit, write_append]
  exact (inert_of_ink hn hink p hp).newline

variable {setting : Setting} {opening closing : String} {p : Page}

theorem IsInert.enter (h : IsInert opening) (hp : p.IsUncommented) :
    (setting.enter opening p).IsUncommented := by
  cases setting with
  | inline => exact h p hp
  | indented => exact (h p hp).freshLine.of_level _
  | lines => exact h _ hp.freshLine

theorem IsInert.leave (h : IsInert closing) (hp : p.IsUncommented) :
    (setting.leave closing p).IsUncommented := by
  cases setting with
  | inline => exact h p hp
  | indented => exact h _ (hp.freshLine.of_level _)
  | lines => exact h _ hp.freshLine

/-! ### Strokes -/

def Act.IsInert (a : Act) : Prop := ∀ p : Page, p.IsUncommented → (a.perform p).IsUncommented

theorem inert_gap : Act.IsInert .gap := by
  intro p hp
  rw [Act.perform]
  split
  · exact hp
  · exact inert_blank p hp

/-- Strokes that open no comment. -/
abbrev Stays : List Stroke → Prop := Preserves Page.IsUncommented

/-- A scope whose opening and closing open no comment. -/
theorem Stays.scope {ss : List Stroke} (h : Stays ss)
    (hscope : EveryOf Act.IsInert [.scope setting opening closing []]) :
    Stays [.scope setting opening closing ss] := by
  obtain ⟨⟨hopened, hclosed, -⟩, -⟩ := hscope
  intro p hp
  rw [runAll_scope]
  exact hclosed _ (h _ (hopened p hp))

/-! ### Steps -/

/-- A text without a line feed. -/
abbrev IsLine (t : String) : Prop := '\n' ∉ t.toList

theorem composes_isLine : Composes IsLine := ⟨id, by simp [IsLine]⟩

theorem every_lines {ts : List String} (h : ∀ t ∈ ts, IsLine t ∧ HasInk t) :
    EveryOf Act.IsInert (strokesOfLines ts) := by
  refine everyOf_lines.2 fun t ht => ⟨?_, fun _ hp => hp.newline⟩
  obtain ⟨hn, hink⟩ := h t ht
  exact inert_of_ink hn hink

theorem every_scope {setting : Setting} {opening closing : String} (hopening : IsInert opening)
    (hclosing : IsInert closing) : EveryOf Act.IsInert [.scope setting opening closing []] :=
  ⟨⟨fun _ hp => hopening.enter hp, fun _ hp => hclosing.leave hp, trivial⟩, trivial⟩

theorem every_inked {setting : Setting} (hopening : IsLine opening) (hopens : HasInk opening)
    (hclosing : IsLine closing) (hcloses : HasInk closing) :
    EveryOf Act.IsInert [.scope setting opening closing []] :=
  every_scope (inert_of_ink hopening hopens) (inert_of_ink hclosing hcloses)

theorem every_statement {setting : Setting} : EveryOf Act.IsInert [.scope setting "" ";\n" []] :=
  every_scope inert_empty (inert_line (t := ";") (by decide) (by decide) (by decide))

theorem every_braces : EveryOf Act.IsInert (strokesOfBraces []) :=
  ⟨inert_gap, every_inked (by decide) (by decide) (by decide) (by decide)⟩

theorem every_space {name : String} (h : IsLine name) (body : List Step) :
    EveryOf Act.IsInert (Step.inSpace (some name) body).bare.strokes := by
  have hopening : IsInert ("namespace " ++ name ++ " \x7b\n") :=
    inert_line (t := "namespace " ++ name ++ " \x7b") (by simpa [IsLine] using h)
      (by simp [HasInk, isInk]) (by simp)
  have hclosing : IsInert ("\x7d // namespace " ++ name ++ "\n") :=
    inert_line (t := "\x7d // namespace " ++ name) (by simpa [IsLine] using h)
      (by simp [HasInk, isInk]) (by simp)
  exact every_scope hopening hclosing

theorem every_includes {is : List Spec.Include} (h : ∀ i ∈ is, IsLine i.path) :
    EveryOf Act.IsInert (strokesOfLines (is.map Spec.Include.directive)) := by
  refine every_lines (List.forall_mem_map.2 fun i hi => ?_)
  have hpath : IsLine i.path := h i hi
  rw [Spec.Include.directive]
  split
  · exact ⟨by simpa [IsLine] using hpath, by simp [HasInk, isInk]⟩
  · exact ⟨by simpa [IsLine] using hpath, by simp [HasInk, isInk]⟩

theorem every_block {header closing : String} (hheader : IsLine header) (hclosing : IsLine closing)
    (hink : HasInk closing) : EveryOf Act.IsInert (strokesOfBlock header closing []) := by
  refine every_scope (inert_of_ink ?_ ?_) (inert_line hclosing hink ?_)
  · simpa [IsLine] using hheader
  · simp [HasInk, isInk]
  · simp

theorem every_template {params : List String} (h : ∀ t ∈ params, IsLine t) (force : Bool) :
    EveryOf Act.IsInert (strokesOfLines (templateLines params force)) := by
  refine every_lines fun t ht => ⟨composes_isLine.combines.templateLines h t ht, ?_⟩
  rw [templateLines] at ht
  split at ht
  · cases ht
  · rw [List.mem_singleton.1 ht]
    simp [HasInk, isInk]

theorem every_case {label : String} (hlabel : IsLine label) (leaves : Bool) :
    EveryOf Act.IsInert (strokesOfCase label leaves []) :=
  everyOf_case_bare (every_block hlabel (by decide) (by decide)) (inert_of_ink (by decide) (by decide))
    fun _ hp => hp.newline

theorem every_ifChain {arms : List (String × List Step)} {otherwise : List Step}
    (h : ∀ arm ∈ arms, IsLine arm.1) :
    EveryOf Act.IsInert (Step.ifChain arms otherwise).bare.strokes := by
  refine everyOf_ifChain_bare every_braces (inert_of_ink (by decide) (by decide)) (fun _ hp => hp.newline)
    fun arm harm k hk => inert_of_ink ?_ ?_
  · have hword : IsLine k := by
      simp only [List.mem_cons, List.not_mem_nil, or_false] at hk
      rcases hk with rfl | rfl <;> decide
    simpa [IsLine] using ⟨hword, h arm harm⟩
  · simp [HasInk, isInk]

/-- Comments apart, the texts of a step that is worded open no comment. -/
theorem every_of_isWorded {s : Step} (h : s.IsWorded IsLine fun _ => False) :
    EveryOf Act.IsInert s.bare.strokes := by
  have hbreak : Act.IsInert .newline := fun _ hp => hp.newline
  cases s with
  | text | indent | dedent | block | fail | unwind | doc => exact h.elim
  | line t => exact ⟨inert_of_ink h.1 h.2, hbreak, trivial⟩
  | newline => exact ⟨hbreak, trivial⟩
  | blank => exact ⟨fun _ hp => hp.freshLine, hbreak, trivial⟩
  | semicolon body => exact every_statement
  | spaced body => exact every_scope inert_empty inert_newline
  | braces body => exact every_braces
  | parens body | angles body => exact every_inked (by decide) (by decide) (by decide) (by decide)
  | inSpace name body =>
    cases name with
    | none => trivial
    | some name => exact every_space (h name (by simp [Step.texts])) body
  | template params force => exact every_template h force
  | struct name params specialization body =>
    obtain ⟨hname, hparams⟩ := List.forall_mem_cons.1 h
    refine everyOf_append.2 ⟨every_template hparams specialization, every_block ?_ (by decide) (by decide)⟩
    simpa [IsLine] using hname
  | switch subject body =>
    have hsubject : IsLine subject := h subject (by simp [Step.texts])
    refine every_block ?_ (by decide) (by decide)
    simpa [IsLine] using hsubject
  | case label leaves body =>
    have hlabel : IsLine label := h label (by simp [Step.texts])
    refine every_case ?_ leaves
    simpa [IsLine] using hlabel
  | default leaves body => exact every_case (by decide) leaves
  | ifElse condition body otherwise =>
    rw [strokes_ifElse]
    exact every_ifChain (by simpa [Step.IsWorded, Step.texts] using h)
  | ifChain arms otherwise => exact every_ifChain (List.forall_mem_map.1 h)
  | join separator items =>
    obtain rfl : separator = "\n" := h
    exact everyOf_join_bare inert_newline items
  | declare f =>
    obtain ⟨-, -, -, hparams, -⟩ := forall_mem_texts.1 h
    refine everyOf_append.2 ⟨every_template hparams false,
      everyOf_scope.2 ⟨every_statement, inert_of_ink ?_ ?_, trivial⟩⟩
    · exact composes_isLine.combines.declaration h
    · simp [Function.declaration, Function.signatureAs, HasInk, isInk]
  | define f body =>
    obtain ⟨-, -, -, hparams, -⟩ := forall_mem_texts.1 h
    exact everyOf_append.2 ⟨every_template hparams false,
      every_block (composes_isLine.combines.defined h) (by decide) (by decide)⟩
  | includes list => exact every_includes (List.forall_mem_map.1 h)

/-- Worded steps without comments open none. -/
theorem stays_of_isWorded {steps : List Step} (h : AllOf (Step.IsWorded IsLine fun _ => False) steps) :
    Stays (strokesOf steps) :=
  preserves_of_every (h.every fun _ hs => every_of_isWorded hs)

/-- Words that begin no comment, each on a line of its own, with commas behind all but the last. -/
theorem isUncommented_join {words : List String}
    (h : ∀ t ∈ words, IsLine t ∧ ¬ ['/', '*'] <:+: t.toList) : ∀ p : Page, p.IsUncommented →
      p.IsFresh → (runAll (strokesOfJoin ",\n" (words.map fun t => [.text t])) p).1.IsUncommented := by
  induction words with
  | nil => exact fun _ hp _ => hp
  | cons t rest ih =>
    obtain ⟨⟨hn, hword⟩, hrest⟩ := List.forall_mem_cons.1 h
    intro p hp hfresh
    cases rest with
    | nil => exact hp.word hn fun blanks hblanks => opensComment_of_not_infix (hblanks hfresh) hword
    | cons u rest =>
      have hline : IsLine (t ++ ",") := by simpa [IsLine] using hn
      have hinert : IsInert (t ++ ",\n") := inert_line hline (by simp [HasInk, isInk]) (by simp)
      have hnext := hinert p hp
      rw [write_append] at hnext
      exact ih hrest _ hnext rfl

end TypeGen.Code
