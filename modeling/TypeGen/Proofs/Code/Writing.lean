import TypeGen.Proofs.Code.Trace
import TypeGen.Proofs.Text.Splitting

/-!
Writing. Whatever is done to a page only adds to its text, and what is added does not depend on the text
that is there already.
-/

namespace TypeGen.Code

open TypeGen.Text

/-- The page with another text on it. -/
def Page.withText (p : Page) (t : String) : Page := ⟨p.indent, p.level, t, p.atLineStart⟩

/-- A change of pages that adds a text, the same one whatever is on the page. -/
def Adds (f : Page → Page) : Prop := ∀ p, ∃ w, ∀ t, f (p.withText t) = (f p).withText (t ++ w)

variable {f g : Page → Page}

theorem Adds.comp (hg : Adds g) (hf : Adds f) : Adds fun p => g (f p) := fun p => by
  obtain ⟨w, hw⟩ := hf p
  obtain ⟨w', hw'⟩ := hg (f p)
  refine ⟨w ++ w', fun t => ?_⟩
  show g (f (p.withText t)) = _
  rw [hw, hw', String.append_assoc]

/-- Changes that depend on whether a line has begun. -/
theorem Adds.ite (hf : Adds f) (hg : Adds g) : Adds fun p => if p.atLineStart then f p else g p :=
  fun p => by
    cases hline : p.atLineStart
    · simpa [hline, Page.withText] using hg p
    · simpa [hline, Page.withText] using hf p

theorem adds_id : Adds fun p => p := fun p => ⟨"", fun t => by rw [String.append_empty]⟩

/-- Changes of the level alone. -/
theorem adds_level (h : Nat → Nat) : Adds fun p => { p with level := h p.level } := fun _ =>
  ⟨"", fun t => by rw [String.append_empty]; rfl⟩

theorem adds_put (c : Char) : Adds (·.put c) := fun p => by
  have hpush : ∀ t w : String, (t ++ w).push c = t ++ w.push c := fun t w => by
    simp [← String.toList_inj]
  by_cases hc : c = '\n'
  · refine ⟨"".push c, fun t => ?_⟩
    rw [← hpush, String.append_empty]
    simp [Page.put, Page.withText, hc]
  · cases hline : p.atLineStart
    · refine ⟨"".push c, fun t => ?_⟩
      rw [← hpush, String.append_empty]
      simp [Page.put, Page.withText, hc, hline]
    · refine ⟨p.margin.push c, fun t => ?_⟩
      rw [← hpush]
      simp [Page.put, Page.withText, hc, hline, Page.margin]

theorem adds_foldl : ∀ cs : List Char, Adds fun p => cs.foldl Page.put p
  | [] => adds_id
  | c :: cs => (adds_foldl cs).comp (adds_put c)

theorem adds_write (s : String) : Adds (·.write s) := adds_foldl s.toList

theorem adds_newline : Adds Page.newline := adds_put '\n'

theorem adds_freshLine : Adds Page.freshLine := adds_id.ite adds_newline

theorem adds_enter (s : Setting) (opening : String) : Adds (s.enter opening) := by
  cases s with
  | inline => exact adds_write opening
  | indented => exact (adds_level (· + 1)).comp (adds_freshLine.comp (adds_write opening))
  | lines => exact (adds_write opening).comp adds_freshLine

theorem adds_leave (s : Setting) (closing : String) : Adds (s.leave closing) := by
  cases s with
  | inline => exact adds_write closing
  | indented => exact (adds_write closing).comp ((adds_level (· - 1)).comp adds_freshLine)
  | lines => exact (adds_write closing).comp adds_freshLine

theorem adds_perform (a : Act) : Adds a.perform := by
  cases a with
  | text s => exact adds_write s
  | newline => exact adds_newline
  | freshLine => exact adds_freshLine
  | gap => exact adds_id.ite (adds_write " ")
  | indent => exact adds_level (· + 1)
  | dedent => exact adds_level (· - 1)
  | opened s => exact adds_enter s.setting s.opening
  | closed s => exact adds_leave s.setting s.closing

theorem adds_replay : ∀ acts : List Act, Adds (replay acts)
  | [] => adds_id
  | a :: acts => (adds_replay acts).comp (adds_perform a)

theorem exists_text_replay (acts : List Act) (p : Page) :
    ∃ added, (replay acts p).text = p.text ++ added := by
  obtain ⟨added, hadded⟩ := adds_replay acts p
  exact ⟨added, congrArg (·.text) (hadded p.text)⟩

theorem exists_text_runAll (ss : List Stroke) (p : Page) :
    ∃ w, (runAll ss p).1.text = p.text ++ w := by
  rw [runAll_eq_replay]
  exact exists_text_replay _ p

/-! ### Levels -/

theorem setting_foldl (cs : List Char) : ∀ p : Page,
    (cs.foldl Page.put p).indent = p.indent ∧ (cs.foldl Page.put p).level = p.level := by
  induction cs with
  | nil => exact fun _ => ⟨rfl, rfl⟩
  | cons c cs ih =>
    intro p
    have hput : (p.put c).indent = p.indent ∧ (p.put c).level = p.level := by
      rw [Page.put]
      split
      · exact ⟨rfl, rfl⟩
      · split <;> exact ⟨rfl, rfl⟩
    rw [List.foldl_cons, (ih _).1, (ih _).2]
    exact hput

@[simp] theorem indent_write (p : Page) (s : String) : (p.write s).indent = p.indent :=
  (setting_foldl _ p).1

@[simp] theorem level_write (p : Page) (s : String) : (p.write s).level = p.level :=
  (setting_foldl _ p).2

@[simp] theorem level_newline (p : Page) : p.newline.level = p.level := rfl

@[simp] theorem level_freshLine (p : Page) : p.freshLine.level = p.level := by
  rw [Page.freshLine]
  split <;> rfl

/-- How much deeper the inside of a scope is. -/
def Setting.depth : Setting → Nat
  | .indented => 1
  | _ => 0

@[simp] theorem level_enter (s : Setting) (opening : String) (p : Page) :
    (s.enter opening p).level = p.level + s.depth := by
  cases s <;> simp [Setting.enter, Setting.depth, Page.deeper]

@[simp] theorem level_leave (s : Setting) (closing : String) (p : Page) :
    (s.leave closing p).level = p.level - s.depth := by
  cases s <;> simp [Setting.leave, Setting.depth, Page.shallower]

/-! ### Where lines begin -/

/-- The page knows whether a line begins. -/
def Page.IsTidy (p : Page) : Prop := p.atLineStart = startsLine p.text.toList

theorem isTidy_blank (i : Indent) : (Page.blank i).IsTidy := rfl

theorem isTidy_put (p : Page) (c : Char) : (p.put c).IsTidy := by
  rw [Page.put]
  split
  next hc => simp [Page.IsTidy, startsLine_concat, hc]
  next hc =>
    split
    · rw [Page.IsTidy, String.toList_push, startsLine_concat]
      simp [hc]
    next hline => simp [Page.IsTidy, startsLine_concat, hc, hline]

namespace Page.IsTidy

variable {p : Page}

theorem write (h : p.IsTidy) (s : String) : (p.write s).IsTidy := by
  rw [Page.write]
  rcases List.eq_nil_or_concat s.toList with hs | ⟨cs, c, hs⟩
  · rw [hs]; exact h
  · rw [hs, List.concat_eq_append, List.foldl_append]
    exact isTidy_put _ c

theorem freshLine (h : p.IsTidy) : p.freshLine.IsTidy := by
  rw [Page.freshLine]
  split
  · exact h
  · exact isTidy_put p '\n'

theorem enter (h : p.IsTidy) (s : Setting) (opening : String) : (s.enter opening p).IsTidy := by
  cases s with
  | inline => exact h.write opening
  | indented => exact (h.write opening).freshLine
  | lines => exact h.freshLine.write opening

theorem leave (h : p.IsTidy) (s : Setting) (closing : String) : (s.leave closing p).IsTidy := by
  cases s with
  | inline => exact h.write closing
  | indented => exact Page.IsTidy.write (p := p.freshLine.shallower) h.freshLine closing
  | lines => exact h.freshLine.write closing

theorem perform (h : p.IsTidy) (a : Act) : (a.perform p).IsTidy := by
  cases a with
  | text s => exact h.write s
  | newline => exact isTidy_put p '\n'
  | freshLine => exact h.freshLine
  | gap =>
    rw [Act.perform]
    split
    · exact h
    · exact h.write " "
  | indent => exact h
  | dedent => exact h
  | opened s => exact h.enter s.setting s.opening
  | closed s => exact h.leave s.setting s.closing

theorem replay (h : p.IsTidy) (acts : List Act) : (replay acts p).IsTidy :=
  replay_keeps (fun a _ _ hp => hp.perform a) h

end Page.IsTidy

/-! ### Words -/

/-- What goes ahead of the next character. -/
def Page.lead (p : Page) : String := if p.atLineStart then p.margin else ""

/-- A text without line feeds goes behind the margin of its line. -/
theorem write_word (p : Page) {t : String} (hn : '\n' ∉ t.toList) (hne : t.toList ≠ []) :
    p.write t = { p with text := p.text ++ p.lead ++ t, atLineStart := false } := by
  have hput : ∀ (p : Page) {c : Char}, c ≠ '\n' →
      p.put c = { p with text := (p.text ++ p.lead).push c, atLineStart := false } := by
    intro p c hc
    rw [Page.put, if_neg hc, Page.lead]
    split
    · rfl
    next hline => simp [hline]
  have hlater : ∀ (cs : List Char) {p : Page}, '\n' ∉ cs → p.atLineStart = false →
      cs.foldl Page.put p = { p with text := p.text ++ String.ofList cs } := by
    intro cs
    induction cs with
    | nil => simp
    | cons c cs ih =>
      intro p hn hline
      obtain ⟨hc, hcs⟩ := not_or.1 (mt List.mem_cons.2 hn)
      rw [List.foldl_cons, hput p (Ne.symm hc), ih hcs rfl]
      simp [← String.toList_inj, hline, Page.lead]
  rw [Page.write]
  cases ht : t.toList with
  | nil => exact absurd ht hne
  | cons c cs =>
    rw [ht] at hn
    obtain ⟨hc, hcs⟩ := not_or.1 (mt List.mem_cons.2 hn)
    rw [List.foldl_cons, hput p (Ne.symm hc), hlater cs hcs rfl]
    simp [← String.toList_inj, ht]

/-- The page with a line more on it, in one with what its last line begins with. -/
def Page.addLine (p : Page) (line : String) : Page :=
  ⟨p.indent, p.level, p.text ++ p.lead ++ line ++ "\n", true⟩

theorem newline_write {p : Page} {t : String} (hn : '\n' ∉ t.toList) (hne : t.toList ≠ []) :
    (p.write t).newline = p.addLine t := by
  rw [write_word p hn hne]
  simp [Page.newline, Page.put, Page.addLine, ← String.toList_inj]

theorem write_append (p : Page) (s t : String) : p.write (s ++ t) = (p.write s).write t := by
  rw [Page.write, String.toList_append, List.foldl_append]
  rfl

theorem atLineStart_freshLine (p : Page) : p.freshLine.atLineStart = true := by
  rw [Page.freshLine]
  split
  next hline => exact hline
  next => rfl

/-- Behind a line feed a line begins. -/
theorem atLineStart_write_line (p : Page) (t : String) : (p.write (t ++ "\n")).atLineStart = true := by
  rw [write_append]
  rfl

theorem freshLine_of_atLineStart {p : Page} (h : p.atLineStart = true) : p.freshLine = p := if_pos h

/-! ### At the outermost level -/

theorem put_of_level {p : Page} (h : p.level = 0) (c : Char) :
    p.put c = ⟨p.indent, 0, p.text.push c, c = '\n'⟩ := by
  rw [Page.put]
  split
  next hc => simp [← h, hc]
  next hc =>
    split
    · simp [Page.margin, h, hc]
    next hline => simp [← h, hc, hline]

/-- Where nothing is indented, a text is written as it is. -/
theorem text_write_of_level {p : Page} (h : p.level = 0) (s : String) :
    (p.write s).text = p.text ++ s := by
  have hfold : ∀ (cs : List Char) {p : Page}, p.level = 0 →
      (cs.foldl Page.put p).text = p.text ++ String.ofList cs := fun cs => by
    induction cs with
    | nil => simp
    | cons c cs ih =>
      intro p hp
      rw [List.foldl_cons, put_of_level hp, ih rfl]
      simp [← String.toList_inj]
  rw [Page.write, hfold _ h, String.ofList_toList]

end TypeGen.Code
