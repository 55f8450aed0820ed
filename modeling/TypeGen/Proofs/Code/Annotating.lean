import TypeGen.Proofs.Code.Comments
import TypeGen.Proofs.Code.Reading
import TypeGen.Proofs.Code.Writing
import TypeGen.Code.Step

/-!
Annotating. A page on which there are comments, next to one on which the same is written without them:
strokes that are the same keep the two alike, and so does a comment that begins where a line does. When
the comments are taken out of the one, what is left is the other.
-/

namespace TypeGen.Code

open TypeGen.Text

/-! ### Taking comments out -/

/-- A line without the blanks in front. -/
def withoutBlanks (line : List Char) : List Char := line.dropWhile fun c => c = ' ' || c = '\t'

/-- The first line of a comment. -/
def opensComment (line : List Char) : Bool := withoutBlanks line = ['/', '*', '*']

/-- The last line of a comment. -/
def closesComment (line : List Char) : Bool := withoutBlanks line = ['*', '/']

mutual

/-- The lines outside of comments, from a line on that is in none. -/
def codeLines : List (List Char) → List (List Char)
  | [] => []
  | line :: rest => if opensComment line then linesBehind rest else line :: codeLines rest

/-- The lines outside of comments, from a line on that is in one. -/
def linesBehind : List (List Char) → List (List Char)
  | [] => []
  | line :: rest => if closesComment line then codeLines rest else linesBehind rest

end

/-- A text without its comments, from the first through the last line of each. -/
def withoutComments (text : String) : String :=
  String.ofList (['\n'].intercalate (codeLines (splitAt '\n' text.toList)))

example : withoutComments "int a;\n  /**\n   * /**\n   *\n   */\nint /** b;" = "int a;\nint /** b;" := by
  decide

/-- Lines that are a comment. -/
def IsComment (block : List (List Char)) : Prop :=
  ∃ opening inside closing, block = opening :: inside ++ [closing] ∧ opensComment opening = true ∧
    (∀ line ∈ inside, closesComment line = false) ∧ closesComment closing = true

theorem codeLines_append_of_isComment {block : List (List Char)} (h : IsComment block)
    (rest : List (List Char)) : codeLines (block ++ rest) = codeLines rest := by
  obtain ⟨opening, inside, closing, rfl, hopening, hinside, hclosing⟩ := h
  have hbehind : ∀ lines : List (List Char), (∀ line ∈ lines, closesComment line = false) →
      linesBehind (lines ++ closing :: rest) = codeLines rest := by
    intro lines hlines
    induction lines with
    | nil => simp [linesBehind, hclosing]
    | cons line lines ih =>
      rw [List.cons_append, linesBehind, hlines line (List.mem_cons_self ..)]
      exact ih fun l hl => hlines l (List.mem_cons_of_mem _ hl)
  rw [List.cons_append, List.cons_append, codeLines, hopening, if_pos rfl, List.append_assoc]
  exact hbehind inside hinside

/-! ### Texts with comments in them -/

/-- A text is another one with comments in it, where lines begin; both end in the same line. -/
def Annotates (code text : List Char) : Prop :=
  ∃ before before' line, splitAt '\n' code = before ++ [line] ∧ splitAt '\n' text = before' ++ [line] ∧
    ((∀ l ∈ before, opensComment l = false) → ∀ rest, codeLines (before' ++ rest) = before ++ codeLines rest)

theorem annotates_nil : Annotates [] [] := ⟨[], [], [], rfl, rfl, fun _ _ => rfl⟩

theorem Annotates.concat {code text : List Char} (h : Annotates code text) (c : Char) :
    Annotates (code ++ [c]) (text ++ [c]) := by
  obtain ⟨before, before', line, hcode, htext, hlines⟩ := h
  by_cases hc : c = '\n'
  · subst hc
    refine ⟨before ++ [line], before' ++ [line], [], ?_, ?_, fun hopen rest => ?_⟩
    · rw [splitAt_concat, hcode]
    · rw [splitAt_concat, htext]
    · have hline : opensComment line = false := hopen line (by simp)
      rw [List.append_assoc, hlines (fun l hl => hopen l (List.mem_append_left _ hl)),
        List.append_assoc]
      simp [codeLines, hline]
  · have hword : '\n' ∉ [c] := by simpa using Ne.symm hc
    exact ⟨before, before', line ++ [c], splitAt_append_word hcode hword,
      splitAt_append_word htext hword, hlines⟩

/-- What is added to both is no matter. -/
theorem Annotates.append {code text : List Char} (h : Annotates code text) (w : List Char) :
    Annotates (code ++ w) (text ++ w) := by
  induction w generalizing code text with
  | nil => simpa using h
  | cons c w ih => simpa using ih (h.concat c)

theorem splitAt_append_lines {before : List (List Char)} :
    ∀ {block : List (List Char)} {cs : List Char}, splitAt '\n' cs = before ++ [[]] →
      (∀ line ∈ block, '\n' ∉ line) →
        splitAt '\n' (cs ++ block.flatMap (· ++ ['\n'])) = before ++ block ++ [[]] := by
  intro block
  induction block generalizing before with
  | nil => simp
  | cons line block ih =>
    intro cs h hblock
    obtain ⟨hline, hrest⟩ := List.forall_mem_cons.1 hblock
    have hfirst : splitAt '\n' (cs ++ line ++ ['\n']) = (before ++ [line]) ++ [[]] := by
      rw [splitAt_concat, splitAt_append_word h hline, List.nil_append]
    have hall := ih hfirst hrest
    simpa using hall

/-- A comment may begin where a line does. -/
theorem Annotates.comment {code text : List Char} (h : Annotates code text)
    (hstart : startsLine code = true) {block : List (List Char)} (hblock : IsComment block)
    (hlines : ∀ line ∈ block, '\n' ∉ line) : Annotates code (text ++ block.flatMap (· ++ ['\n'])) := by
  obtain ⟨before, before', line, hcode, htext, hbefore⟩ := h
  have hline : line = [] := List.isEmpty_iff.1 ((isEmpty_lastLine hcode).trans hstart)
  subst hline
  refine ⟨before, before' ++ block, [], hcode, splitAt_append_lines htext hlines, fun hopen rest => ?_⟩
  rw [List.append_assoc, hbefore hopen, codeLines_append_of_isComment hblock]

theorem Annotates.withoutComments {code text : String} (h : Annotates code.toList text.toList)
    (hopen : ∀ line ∈ splitAt '\n' code.toList, opensComment line = false) :
    withoutComments text = code := by
  obtain ⟨before, before', line, hcode, htext, hlines⟩ := h
  rw [hcode] at hopen
  have hline : opensComment line = false := hopen line (by simp)
  have hkept : codeLines (splitAt '\n' text.toList) = splitAt '\n' code.toList := by
    rw [htext, hlines (fun l hl => hopen l (List.mem_append_left _ hl)), hcode]
    simp [codeLines, hline]
  rw [Code.withoutComments, hkept, intercalate_splitAt, String.ofList_toList]

/-! ### Pages with comments on them -/

/-- The second page is the first one with comments on it. -/
structure Annotated (p q : Page) : Prop where
  tidy : p.IsTidy
  text : ∃ t, q = p.withText t ∧ Annotates p.text.toList t.toList

theorem annotated_blank (i : Indent) : Annotated (Page.blank i) (Page.blank i) :=
  ⟨isTidy_blank i, "", rfl, annotates_nil⟩

theorem Annotated.of_adds {f : Page → Page} {p q : Page} (hf : Adds f) (htidy : (f p).IsTidy)
    (h : Annotated p q) : Annotated (f p) (f q) := by
  obtain ⟨t, rfl, ht⟩ := h.text
  obtain ⟨w, hw⟩ := hf p
  have htext : (f p).text = p.text ++ w := congrArg Page.text (hw p.text)
  refine ⟨htidy, t ++ w, hw t, ?_⟩
  rw [htext, String.toList_append, String.toList_append]
  exact ht.append w.toList

/-- Strokes, with comments and without, that keep pages of some kind alike. -/
def Alike (P : Page → Prop) (xs ys : List Stroke) : Prop := ∀ p q, P p → Annotated p q →
  Annotated (runAll xs p).1 (runAll ys q).1 ∧ (runAll ys q).2 = (runAll xs p).2

variable {P R : Page → Prop} {xs ys xs' ys' : List Stroke}

theorem alike_refl (P : Page → Prop) (xs : List Stroke) : Alike P xs xs := by
  intro p q _ h
  have hperform : Annotated (replay (traceAll xs).1 p) (replay (traceAll xs).1 q) :=
    h.of_adds (adds_replay _) (h.tidy.replay _)
  rw [runAll_eq_replay, runAll_eq_replay]
  exact ⟨hperform, rfl⟩

theorem Alike.append (hx : Alike P xs ys)
    (hmid : ∀ p, P p → (runAll xs p).2 = .done → R (runAll xs p).1) (hy : Alike R xs' ys') :
    Alike P (xs ++ xs') (ys ++ ys') := by
  intro p q hp h
  obtain ⟨hpages, hends⟩ := hx p q hp h
  rw [runAll_append_eq, runAll_append_eq, hends]
  split
  next hdone => exact hy _ _ (hmid p hp hdone) hpages
  next => exact ⟨hpages, hends⟩

theorem Alike.scope {setting : Setting} {opening closing : String} (h : Alike R xs ys)
    (henter : ∀ p, P p → R (setting.enter opening p)) :
    Alike P [.scope setting opening closing xs] [.scope setting opening closing ys] := by
  intro p q hp hpq
  have hentered := hpq.of_adds (adds_enter setting opening) (hpq.tidy.enter setting opening)
  obtain ⟨hpages, hends⟩ := h _ _ (henter p hp) hentered
  rw [runAll_scope, runAll_scope]
  exact ⟨hpages.of_adds (adds_leave setting closing) (hpages.tidy.leave setting closing), hends⟩

/-! ### Where lines begin -/

/-- A line begins. -/
abbrev Page.IsFresh (p : Page) : Prop := p.atLineStart = true

/-- Strokes that, from where a line begins, come to where a line begins. -/
abbrev Restarts : List Stroke → Prop := Preserves Page.IsFresh

theorem restarts_line (t : String) : Restarts (strokesOfLine t) := fun _ _ => rfl

theorem restarts_scope {closing : String} (hclosing : ∃ t, closing = t ++ "\n") (setting : Setting)
    (opening : String) (body : List Stroke) : Restarts [.scope setting opening closing body] := by
  obtain ⟨t, rfl⟩ := hclosing
  intro p _
  rw [runAll_scope]
  cases setting with
  | inline | indented | lines => exact atLineStart_write_line _ t

theorem Alike.append_of_restarts (hx : Alike Page.IsFresh xs ys) (h : Restarts xs)
    (hy : Alike Page.IsFresh xs' ys') : Alike Page.IsFresh (xs ++ xs') (ys ++ ys') :=
  hx.append (fun p hp _ => h p hp) hy

theorem alike_flatMap {α : Type} {as : List α} {f g : α → List Stroke}
    (h : ∀ a ∈ as, Alike Page.IsFresh (f a) (g a) ∧ Restarts (f a)) :
    Alike Page.IsFresh (as.flatMap f) (as.flatMap g) := by
  induction as with
  | nil => exact alike_refl _ []
  | cons a as ih =>
    obtain ⟨⟨halike, hrestarts⟩, has⟩ := List.forall_mem_cons.1 h
    rw [List.flatMap_cons, List.flatMap_cons]
    exact halike.append_of_restarts hrestarts (ih has)

/-! ### Comments on pages -/

theorem withoutBlanks_append {margin : List Char} (h : ∀ c ∈ margin, c = ' ' ∨ c = '\t')
    (line : List Char) : withoutBlanks (margin ++ line) = withoutBlanks line :=
  List.dropWhile_append_of_pos fun c hc => by simpa using h c hc

/-- The lines of a comment on a page. -/
def commentBlock (margin text : String) : List (List Char) :=
  (commentLines text).map fun line => margin.toList ++ line.toList

theorem notMem_commentLines {text line : String} (h : line ∈ commentLines text) :
    '\n' ∉ line.toList ∧ line.toList ≠ [] := by
  simp only [commentLines, List.mem_append, List.mem_singleton, List.mem_map] at h
  rcases h with (rfl | ⟨inner, hinner, rfl⟩) | rfl
  · decide
  · obtain ⟨-, hn⟩ := infix_of_comment hinner
    rw [commentLine]
    split
    · decide
    next => simpa using hn
  · decide

theorem notMem_commentBlock {margin : String} (hmargin : ∀ c ∈ margin.toList, c = ' ' ∨ c = '\t')
    (text : String) : ∀ line ∈ commentBlock margin text, '\n' ∉ line := by
  refine List.forall_mem_map.2 fun line hline hn => ?_
  rcases List.mem_append.1 hn with hn | hn
  · rcases hmargin _ hn with h | h <;> cases h
  · exact (notMem_commentLines hline).1 hn

theorem isComment_commentBlock {margin : String} (hmargin : ∀ c ∈ margin.toList, c = ' ' ∨ c = '\t')
    (text : String) : IsComment (commentBlock margin text) := by
  refine ⟨margin.toList ++ "/**".toList, (lines (trimEnd (openComment text.toList))).map fun line =>
    margin.toList ++ (commentLine line).toList, margin.toList ++ " */".toList, ?_, ?_, ?_, ?_⟩
  · simp [commentBlock, commentLines, Function.comp_def]
  · rw [opensComment, withoutBlanks_append hmargin]; rfl
  · refine List.forall_mem_map.2 fun line _ => ?_
    rw [closesComment, withoutBlanks_append hmargin, commentLine]
    -- behind the star there is a blank, if anything
    split <;> simp [withoutBlanks]
  · rw [closesComment, withoutBlanks_append hmargin]; rfl

theorem runAll_addLine {ts : List String} (h : ∀ t ∈ ts, '\n' ∉ t.toList ∧ t.toList ≠ []) :
    ∀ p : Page, runAll (strokesOfLines ts) p = (ts.foldl Page.addLine p, .done) := by
  induction ts with
  | nil => exact fun _ => rfl
  | cons t ts ih =>
    intro p
    obtain ⟨⟨hn, hne⟩, hrest⟩ := List.forall_mem_cons.1 h
    have hline : runAll (strokesOfLine t) p = (p.addLine t, .done) := by
      rw [← newline_write hn hne]; rfl
    rw [strokesOfLines, List.flatMap_cons, runAll_append hline, ← strokesOfLines, ih hrest]
    rfl

/-- From where a line begins, each line stands behind the margin. -/
theorem foldl_addLine (ts : List String) : ∀ {p : Page}, p.atLineStart = true →
    ts.foldl Page.addLine p = p.withText (p.text ++ String.ofList
      ((ts.map fun t => p.margin.toList ++ t.toList).flatMap (· ++ ['\n']))) := by
  induction ts with
  | nil => intro p _; simp [Page.withText]
  | cons t ts ih =>
    intro p hp
    have hline : p.addLine t = p.withText (p.text ++ p.margin ++ t ++ "\n") := by
      simp [Page.addLine, Page.withText, Page.lead, hp]
    have hlater := ih (p := p.withText (p.text ++ p.margin ++ t ++ "\n")) hp
    rw [List.foldl_cons, hline, hlater]
    simp [Page.withText, Page.margin, ← String.toList_inj]

theorem runAll_lines {ss : List String} (hss : ∀ s ∈ ss, '\n' ∉ s.toList ∧ s.toList ≠ []) {p : Page}
    (hp : p.atLineStart = true) : runAll (strokesOfLines ss) p =
      (p.withText (p.text ++ String.ofList
        ((ss.map fun s => p.margin.toList ++ s.toList).flatMap (· ++ ['\n']))), .done) := by
  rw [runAll_addLine hss, foldl_addLine ss hp]

/-- A comment where a line begins is a comment more than there was. -/
theorem alike_doc (text : String) : Alike Page.IsFresh [] (Step.doc text).strokes := by
  intro p q hp h
  obtain ⟨t, rfl, ht⟩ := h.text
  have hfresh : (p.withText t).IsFresh := hp
  have hrun : runAll (Step.doc text).strokes (p.withText t) =
      runAll (strokesOfLines (commentLines text)) (p.withText t) := by
    rw [Step.strokes, runAll, Stroke.run, freshLine_of_atLineStart hfresh]
  have hmargin : ∀ c ∈ p.margin.toList, c = ' ' ∨ c = '\t' := fun c hc => Reader.mem_margin hc
  have hstart : startsLine p.text.toList = true := h.tidy.symm.trans hp
  rw [hrun, runAll_lines (fun line => notMem_commentLines) hfresh]
  refine ⟨⟨h.tidy, _, rfl, ?_⟩, rfl⟩
  rw [runAll, String.toList_append, String.toList_ofList]
  exact ht.comment hstart (isComment_commentBlock hmargin text) (notMem_commentBlock hmargin text)

end TypeGen.Code
