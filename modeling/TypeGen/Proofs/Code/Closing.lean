import TypeGen.Proofs.Code.Comments
import TypeGen.Proofs.Code.Nesting
import TypeGen.Proofs.Code.Phrases

/-!
Closing. Strokes are balanced when what they write, read from code, comes back to code with the brackets
as they were; they end in code when it may end behind a slash. Each kind of step is balanced when the
texts in it are clear and the steps in it are balanced, whatever its comments say.
-/

namespace TypeGen.Code

open TypeGen.Spec TypeGen.Text

/-- The strokes end well, and read from code, what they write leads to a state of some kind. -/
def EndsIn (T : List Char → Lexed → Prop) (ss : List Stroke) : Prop :=
  ∀ (p : Page) (due : List Char), ∃ q s, runAll ss p = (q, .done) ∧ T due s ∧
    lexer.Follows p ⟨.code, due⟩ q s

abbrev Balanced (ss : List Stroke) : Prop := EndsIn (fun due s => s = ⟨.code, due⟩) ss

abbrev EndsInCode (ss : List Stroke) : Prop := EndsIn InCode ss

variable {T : List Char → Lexed → Prop} {xs ys body : List Stroke}

theorem Balanced.endsInCode (h : Balanced xs) : EndsInCode xs := fun p due => by
  obtain ⟨q, s, hrun, hs, hfollows⟩ := h p due
  exact ⟨q, s, hrun, .inl hs, hfollows⟩

theorem lexer_newline (due : List Char) : lexer.step ⟨.code, due⟩ '\n' = some ⟨.code, due⟩ :=
  Lexed.code_newline due

theorem lexer_fits (p : Page) (due : List Char) : lexer.Fits p ⟨.code, due⟩ := fun _ c hc =>
  lexer.margin (lexer_newline due) c hc

/-! ### Strokes in order -/

theorem balanced_nil : Balanced [] := fun p due => ⟨p, _, rfl, rfl, .refl (lexer_fits p due)⟩

theorem EndsIn.after (hy : EndsIn T ys) (hx : Balanced xs) : EndsIn T (xs ++ ys) := fun p due => by
  obtain ⟨q, s, hrun, rfl, hfollows⟩ := hx p due
  obtain ⟨q', s', hrun', hs', hfollows'⟩ := hy q due
  exact ⟨q', s', by rw [runAll_append hrun, hrun'], hs', hfollows.trans hfollows'⟩

theorem Balanced.append (hx : Balanced xs) (hy : Balanced ys) : Balanced (xs ++ ys) :=
  EndsIn.after hy hx

theorem balanced_flatMap {α : Type} {as : List α} {f : α → List Stroke}
    (h : ∀ a ∈ as, Balanced (f a)) :
    Balanced (as.flatMap f) := by
  induction as with
  | nil => exact balanced_nil
  | cons a as ih =>
    rw [List.flatMap_cons]
    exact (h a (List.mem_cons_self ..)).append (ih fun b hb => h b (List.mem_cons_of_mem _ hb))

theorem endsIn_attempt (h : EndsIn T body) : EndsIn T [.attempt body] := fun p due => by
  obtain ⟨q, s, hrun, hends⟩ := h p due
  exact ⟨q, s, by simp [runAll, Stroke.run, hrun, Ending.absorb], hends⟩

theorem balanced_ensure (hx : Balanced xs) (hy : Balanced ys) :
    Balanced [.ensure xs ys] := fun p due => by
  obtain ⟨q, s, hrun, rfl, hfollows⟩ := hx p due
  obtain ⟨q', s', hrun', rfl, hfollows'⟩ := hy q due
  exact ⟨q', _, by simp [runAll, Stroke.run, hrun, hrun'], rfl, hfollows.trans hfollows'⟩

/-- Strokes that move the page and write nothing. -/
theorem balanced_level {s : Stroke} (h : s = .indent ∨ s = .dedent) :
    Balanced [s] := fun p due => by
  have hstay := Reader.Follows.refl (lexer_fits p due)
  rcases h with rfl | rfl
  · exact ⟨p.deeper, _, rfl, rfl, hstay.of_level _⟩
  · exact ⟨p.shallower, _, rfl, rfl, hstay.of_level _⟩

/-! ### Texts and lines -/

theorem endsInCode_text {t : String} (h : Clear t) : EndsInCode [.text t] := fun p due => by
  obtain ⟨s, hs, hin⟩ := h.read due
  exact ⟨_, s, rfl, hin, Reader.follows_write (lexer_fits p due) hs⟩

/-- A text that comes back to code by itself, and makes no comment of what is ahead of it. -/
theorem EndsInCode.text (h : EndsInCode xs) {t : String} (hne : t.toList ≠ [])
    (hstarts : StartsNoComment t.toList)
    (hread : lexer.read ⟨.code, []⟩ t.toList = some ⟨.code, []⟩) : Balanced (xs ++ [.text t]) :=
  fun p due => by
    obtain ⟨q, s, hrun, hin, hfollows⟩ := h p due
    refine ⟨_, _, by rw [runAll_append hrun]; rfl, rfl,
      hfollows.trans (Reader.follows_write hfollows.fits ?_)⟩
    rw [hin.read hne hstarts]
    exact lexer_owing hread due

theorem inCode_newline {due : List Char} {s : Lexed} (h : InCode due s) :
    lexer.step s '\n' = some ⟨.code, due⟩ := by
  rcases h with rfl | rfl <;> exact Lexed.code_newline due

/-- Where a line begins there is no slash ahead. -/
theorem eq_of_fits {p : Page} {due : List Char} {s : Lexed} (h : InCode due s)
    (hfits : lexer.Fits p s)
    (hline : p.atLineStart = true) : s = ⟨.code, due⟩ := by
  rcases h with rfl | rfl
  · rfl
  · have hblank := hfits hline ' ' (.inl rfl)
    rw [lexer_step] at hblank
    exact absurd hblank fun h0 => by
      have := Lexed.mode_of_step h0 (by decide)
      exact this rfl

theorem InCode.freshLine {p : Page} {due : List Char} {s : Lexed} (h : InCode due s)
    (hfits : lexer.Fits p s) : lexer.Follows p s p.freshLine ⟨.code, due⟩ :=
  Reader.follows_freshLine hfits (inCode_newline h) fun hline => (eq_of_fits h hfits hline).symm

theorem EndsInCode.newline (h : EndsInCode xs) : Balanced (xs ++ [.newline]) := fun p due => by
  obtain ⟨q, s, hrun, hin, hfollows⟩ := h p due
  exact ⟨_, _, by rw [runAll_append hrun]; rfl, rfl,
    hfollows.trans (Reader.follows_newline hfollows.fits (inCode_newline hin))⟩

theorem EndsInCode.freshLine (h : EndsInCode xs) : Balanced (xs ++ [.freshLine]) := fun p due => by
  obtain ⟨q, s, hrun, hin, hfollows⟩ := h p due
  exact ⟨_, _, by rw [runAll_append hrun]; rfl, rfl, hfollows.trans (hin.freshLine hfollows.fits)⟩

theorem EndsInCode.gap (h : EndsInCode xs) : Balanced (xs ++ [.gap]) := fun p due => by
  obtain ⟨q, s, hrun, hin, hfollows⟩ := h p due
  refine ⟨_, _, by rw [runAll_append hrun]; rfl, rfl, hfollows.trans ?_⟩
  split
  next hline => rw [eq_of_fits hin hfollows.fits hline]; exact .refl (lexer_fits q due)
  next =>
    have hread : lexer.read ⟨.code, []⟩ " ".toList = some ⟨.code, []⟩ := by decide
    refine Reader.follows_write hfollows.fits ?_
    rw [hin.read (by decide) (by decide)]
    exact lexer_owing hread due

theorem balanced_line {t : String} (h : Clear t) : Balanced (strokesOfLine t) :=
  (endsInCode_text h).newline

theorem balanced_lines {ts : List String} (h : ∀ t ∈ ts, Clear t) : Balanced (strokesOfLines ts) :=
  balanced_flatMap fun t ht => balanced_line (h t ht)

/-! ### Scopes -/

/-- The opening of a scope leads from code to code, and its closing back. -/
structure Encloses (opening closing : String) (due : List Char) : Prop where
  opens : lexer.read ⟨.code, []⟩ opening.toList = some ⟨.code, due⟩
  closes : lexer.read ⟨.code, due⟩ closing.toList = some ⟨.code, []⟩
  starts : closing.toList ≠ [] ∧ StartsNoComment closing.toList

theorem Encloses.enter {opening closing : String} {owed : List Char} (h : Encloses opening closing owed)
    (setting : Setting) (p : Page) (due : List Char) :
    lexer.Follows p ⟨.code, due⟩ (setting.enter opening p) ⟨.code, owed ++ due⟩ :=
  Reader.follows_enter (lexer_fits p due) (inCode_newline (.inl rfl)) (lexer_owing h.opens due)
    (inCode_newline (.inl rfl))

theorem Encloses.leave {opening closing : String} {owed : List Char} (h : Encloses opening closing owed)
    (setting : Setting) {q : Page} {due : List Char} {s : Lexed} (hs : InCode (owed ++ due) s)
    (hfits : lexer.Fits q s) : lexer.Follows q s (setting.leave closing q) ⟨.code, due⟩ := by
  have hclose := lexer_owing h.closes due
  refine Reader.follows_leave hfits (inCode_newline hs) (fun hline => ?_) ?_ hclose
  · exact (eq_of_fits hs hfits hline).symm
  · rw [hs.read h.starts.1 h.starts.2]
    exact hclose

theorem balanced_scope (owed : List Char) {setting : Setting} {opening closing : String}
    (h : Encloses opening closing owed) (hbody : EndsInCode body) :
    Balanced [.scope setting opening closing body] := fun p due => by
  obtain ⟨q, s, hrun, hin, hfollows⟩ := hbody (setting.enter opening p) (owed ++ due)
  exact ⟨setting.leave closing q, _, by simp [runAll, Stroke.run, hrun], rfl,
    ((h.enter setting p due).trans hfollows).trans (h.leave setting hin hfollows.fits)⟩

theorem balanced_block {header closing : String} (hheader : Clear header)
    (hclosing : closing = "\x7d" ∨ closing = "\x7d;") (hbody : EndsInCode body) :
    Balanced (strokesOfBlock header closing body) := by
  refine balanced_scope ['\x7d'] ⟨read_phrase (.code hheader) [.fixed _] (by rfl) (by simp), ?_, ?_⟩
    hbody
  all_goals rcases hclosing with rfl | rfl <;> decide

theorem balanced_braces (h : EndsInCode xs) (hbody : EndsInCode body) :
    Balanced (xs ++ strokesOfBraces body) := by
  have hscope : Balanced [.scope .indented "\x7b" "\x7d" body] :=
    balanced_scope ['\x7d'] ⟨by decide, by decide, by decide⟩ hbody
  have := h.gap.append hscope
  rwa [List.append_assoc] at this

/-! ### Comments -/

/-- A block comment, perhaps behind a star. -/
def InBlock (due : List Char) (s : Lexed) : Prop := s = ⟨.block, due⟩ ∨ s = ⟨.star, due⟩

/-- A text without the end of a comment does not end one. -/
theorem read_block {due : List Char} : ∀ {cs : List Char} {s : Lexed}, InBlock due s →
    ¬ ['*', '/'] <:+: cs → (s.mode = .star → cs.head? ≠ some '/') →
      ∃ s', lexer.read s cs = some s' ∧ InBlock due s'
  | [], s, hs, _, _ => ⟨s, rfl, hs⟩
  | c :: cs, s, hs, hpart, hhead => by
    rw [List.infix_cons_iff, not_or] at hpart
    have hstep : lexer.step s c = some ⟨if c = '*' then .star else .block, due⟩ := by
      rcases hs with rfl | rfl
      · rfl
      · have hne : c ≠ '/' := by simpa using hhead rfl
        simp only [lexer_step, Lexed.step, if_neg hne]
    rw [Reader.read_cons, hstep]
    refine read_block ?_ hpart.2 fun hstar hslash => ?_
    · split
      · exact .inr rfl
      · exact .inl rfl
    · obtain ⟨rest, rfl⟩ := List.head?_eq_some_iff.1 hslash
      have hc : c = '*' := by
        by_contra hc
        simp [hc] at hstar
      exact hpart.1 ⟨rest, by rw [hc]; rfl⟩

theorem inBlock_newline {due : List Char} {s : Lexed} (h : InBlock due s) :
    lexer.step s '\n' = some ⟨.block, due⟩ := by
  rcases h with rfl | rfl <;> rfl

theorem read_commentLine {text : String} {line : List Char}
    (h : line ∈ lines (trimEnd (openComment text.toList))) (due : List Char) :
    ∃ s, lexer.read ⟨.block, due⟩ (commentLine line).toList = some s ∧ InBlock due s := by
  have hpart : ¬ ['*', '/'] <:+: trimEnd line := fun hpart =>
    not_infix_openComment _ (hpart.trans (infix_of_comment h).1)
  rw [commentLine]
  split
  · exact ⟨_, rfl, .inr rfl⟩
  next hcs =>
    refine read_block (.inl rfl) ?_ fun h0 => by cases h0
    rw [String.toList_append, String.toList_ofList, String.toList_ofList]
    simpa [List.infix_cons_iff] using hpart

/-- A line that leads from one state to another. -/
theorem follows_line {p : Page} {s s' s'' : Lexed} {t : String} (hfits : lexer.Fits p s)
    (hread : lexer.read s t.toList = some s') (hline : lexer.step s' '\n' = some s'') :
    ∃ q, runAll (strokesOfLine t) p = (q, .done) ∧ lexer.Follows p s q s'' :=
  ⟨_, rfl, Reader.follows_line hfits hread hline⟩

theorem follows_comment {due : List Char} : ∀ {ts : List String} {p : Page},
    lexer.Fits p ⟨.block, due⟩ →
    (∀ t ∈ ts, ∃ s, lexer.read ⟨.block, due⟩ t.toList = some s ∧ InBlock due s) →
      ∃ q, runAll (strokesOfLines ts) p = (q, .done) ∧
        lexer.Follows p ⟨.block, due⟩ q ⟨.block, due⟩
  | [], p, hfits, _ => ⟨p, rfl, .refl hfits⟩
  | t :: ts, p, hfits, h => by
    obtain ⟨s, hread, hs⟩ := h t (List.mem_cons_self ..)
    obtain ⟨q, hrun, hfollows⟩ := follows_line hfits hread (inBlock_newline hs)
    obtain ⟨q', hrun', hfollows'⟩ :=
      follows_comment hfollows.fits fun t ht => h t (List.mem_cons_of_mem _ ht)
    refine ⟨q', ?_, hfollows.trans hfollows'⟩
    rw [strokesOfLines, List.flatMap_cons, runAll_append hrun]
    exact hrun'

/-- Whatever a comment says, it ends at its last line. -/
theorem balanced_doc (text : String) : Balanced (Step.doc text).strokes := fun p due => by
  have hopen : lexer.read ⟨.code, []⟩ "/**".toList = some ⟨.star, []⟩ := by decide
  have hclose : lexer.read ⟨.block, []⟩ " */".toList = some ⟨.code, []⟩ := by decide
  have hstart := InCode.freshLine (.inl rfl) (lexer_fits p due)
  obtain ⟨q₁, hrun₁, hfirst⟩ :=
    follows_line hstart.fits (lexer_owing hopen due) (inBlock_newline (.inr rfl))
  obtain ⟨q₂, hrun₂, hinside⟩ := follows_comment hfirst.fits
    (List.forall_mem_map.2 fun line hline => read_commentLine hline due)
  obtain ⟨q₃, hrun₃, hlast⟩ :=
    follows_line hinside.fits (lexer_owing hclose due) (lexer_newline due)
  refine ⟨q₃, _, ?_, rfl, ((hstart.trans hfirst).trans hinside).trans hlast⟩
  have hstrokes : (Step.doc text).strokes = [.freshLine] ++ (strokesOfLine "/**" ++
      (strokesOfLines ((lines (trimEnd (openComment text.toList))).map commentLine) ++
        strokesOfLine " */")) := by
    simp [Step.strokes, commentLines, strokesOfLines, List.flatMap_append]
  rw [hstrokes, runAll_append (show runAll [.freshLine] p = (p.freshLine, .done) from rfl),
    runAll_append hrun₁, runAll_append hrun₂, hrun₃]

end TypeGen.Code
