import TypeGen.Proofs.Code.Reading
import TypeGen.Proofs.Code.Scopes

/-!
Indenting. On a page that starts some levels deeper, the same is done with the same text, only that each
line that is not empty starts with as many more units of indentation, provided that nothing goes back
from the outermost level.
-/

namespace TypeGen.Code

open TypeGen.Text

/-! ### Lines behind a margin -/

/-- A text with a margin in front of each line that is not empty. -/
def indentLines (margin text : List Char) : List Char :=
  ['\n'].intercalate ((splitAt '\n' text).map fun line => if line.isEmpty then [] else margin ++ line)

/-- `indentLines` on strings. -/
def indentText (margin text : String) : String :=
  String.ofList (indentLines margin.toList text.toList)

theorem indentLines_append_newline (margin text : List Char) :
    indentLines margin (text ++ ['\n']) = indentLines margin text ++ ['\n'] := by
  have hne := splitAt_ne_nil '\n' text
  rw [indentLines, splitAt_concat, List.map_append, List.map_singleton, List.isEmpty_nil, if_pos rfl,
    intercalate_concat_nil _ (by simpa using hne)]
  rfl

/-- A word goes behind the margin where it begins a line. -/
theorem indentLines_append_word (margin text : List Char) {w : List Char} (hw : '\n' ∉ w)
    (hne : w ≠ []) : indentLines margin (text ++ w) =
      indentLines margin text ++ ((if startsLine text then margin else []) ++ w) := by
  obtain ⟨before, line, hsplit⟩ := exists_splitAt_eq_concat '\n' text
  have hline := isEmpty_lastLine hsplit
  have hword := splitAt_append_word hsplit hw
  have hsome : (line ++ w).isEmpty = false := by simp [hne]
  rw [indentLines, indentLines, hword, hsplit, List.map_append, List.map_append,
    List.map_singleton, List.map_singleton, hsome, ← hline]
  cases hempty : line.isEmpty with
  | true =>
    rw [List.isEmpty_iff.1 hempty]
    simpa using intercalate_concat ['\n'] _ [] (margin ++ w)
  | false =>
    simpa using intercalate_concat ['\n'] _ (margin ++ line) w

/-! ### Pages some levels deeper -/

/-- As much indentation as there is at a level. -/
def Indent.units (i : Indent) (n : Nat) : String := String.join (List.replicate n i.unit)

theorem Indent.units_add (i : Indent) (m n : Nat) : i.units (m + n) = i.units m ++ i.units n := by
  rw [units, List.replicate_add, String.join_append]; rfl

namespace Page

/-- The page as it is when the same is written some levels deeper. -/
def raise (p : Page) (k : Nat) : Page :=
  ⟨p.indent, p.level + k, indentText (p.indent.units k) p.text, p.atLineStart⟩

theorem raise_blank (i : Indent) (k : Nat) : (blank i).raise k = { blank i with level := k } := by
  simp [raise, blank, indentText, indentLines, splitAt]

end Page

theorem margin_raise (p : Page) (k : Nat) : (p.raise k).margin = p.indent.units k ++ p.margin := by
  show p.indent.units (p.level + k) = _
  rw [Nat.add_comm, Indent.units_add]; rfl

/-- What is done to a tidy page is done some levels deeper as well. -/
def Lifts (k : Nat) (f : Page → Page) : Prop :=
  ∀ p : Page, p.IsTidy → f (p.raise k) = (f p).raise k ∧ (f p).IsTidy

variable {k : Nat} {f g : Page → Page}

theorem Lifts.comp (hg : Lifts k g) (hf : Lifts k f) : Lifts k fun p => g (f p) := fun p hp => by
  obtain ⟨hraise, htidy⟩ := hf p hp
  obtain ⟨hraise', htidy'⟩ := hg _ htidy
  refine ⟨?_, htidy'⟩
  show g (f (p.raise k)) = _
  rw [hraise, hraise']

theorem lifts_put (k : Nat) (c : Char) : Lifts k (·.put c) := fun p hp => by
  have htext : ∀ m t : String, (indentText m t).toList = indentLines m.toList t.toList := fun _ _ =>
    String.toList_ofList
  refine ⟨?_, isTidy_put p c⟩
  by_cases hc : c = '\n'
  · subst hc
    have hpush : (indentText (p.indent.units k) p.text).push '\n' =
        indentText (p.indent.units k) (p.text.push '\n') := by
      rw [← String.toList_inj, String.toList_push, htext, htext, String.toList_push,
        indentLines_append_newline]
    simp [Page.put, Page.raise, hpush]
  · cases hline : p.atLineStart with
    | true =>
      have hword : '\n' ∉ p.margin.toList ++ [c] := fun h => by
        rcases List.mem_append.1 h with h | h
        · exact absurd (Reader.mem_margin h) (by decide)
        · exact hc (List.mem_singleton.1 h).symm
      have hstarts : startsLine p.text.toList = true := hp.symm.trans hline
      have hpush : (indentText (p.indent.units k) p.text ++ (p.raise k).margin).push c =
          indentText (p.indent.units k) ((p.text ++ p.margin).push c) := by
        rw [← String.toList_inj, htext, margin_raise]
        simp only [String.toList_push, String.toList_append, List.append_assoc, htext]
        rw [indentLines_append_word _ _ hword (by simp), hstarts, if_pos rfl]
      simp only [Page.put, hc, if_false]
      rw [if_pos (show (p.raise k).atLineStart = true from hline), if_pos hline]
      simp only [Page.raise] at hpush ⊢
      rw [hpush]
    | false =>
      have hstarts : startsLine p.text.toList = false := hp.symm.trans hline
      have hpush : (indentText (p.indent.units k) p.text).push c =
          indentText (p.indent.units k) (p.text.push c) := by
        rw [← String.toList_inj, String.toList_push, htext, htext, String.toList_push,
          indentLines_append_word _ _ (by simpa using Ne.symm hc) (by simp), hstarts]
        rfl
      simp [Page.put, Page.raise, hc, hline, hpush]

theorem lifts_id : Lifts k fun p => p := fun _ hp => ⟨rfl, hp⟩

theorem lifts_foldl : ∀ cs : List Char, Lifts k fun p => cs.foldl Page.put p
  | [] => lifts_id
  | c :: cs => (lifts_foldl cs).comp (lifts_put k c)

theorem lifts_write (s : String) : Lifts k (·.write s) := lifts_foldl s.toList

theorem lifts_newline : Lifts k Page.newline := lifts_put k '\n'

/-- Whether a line begins is the same at every level. -/
theorem Lifts.ite (hf : Lifts k f) (hg : Lifts k g) :
    Lifts k fun p => if p.atLineStart then f p else g p := fun p hp => by
  cases hline : p.atLineStart with
  | true => simpa [Page.raise, hline] using hf p hp
  | false => simpa [Page.raise, hline] using hg p hp

theorem lifts_freshLine : Lifts k Page.freshLine := lifts_id.ite lifts_newline

theorem lifts_deeper : Lifts k Page.deeper := fun p hp =>
  ⟨by simp only [Page.deeper, Page.raise, Nat.add_right_comm], hp⟩

/-- Only at the outermost level it matters that there is nothing to go back to. -/
theorem raise_shallower {p : Page} (h : 0 < p.level) : (p.raise k).shallower = p.shallower.raise k := by
  simp only [Page.shallower, Page.raise, Page.mk.injEq, true_and, and_true]
  omega

theorem lifts_enter (s : Setting) (opening : String) : Lifts k (s.enter opening) := by
  cases s with
  | inline => exact lifts_write opening
  | indented => exact lifts_deeper.comp (lifts_freshLine.comp (lifts_write opening))
  | lines => exact (lifts_write opening).comp lifts_freshLine

/-- Acts that go back by a level. -/
def Act.lowers : Act → Bool
  | .dedent => true
  | .closed s => s.setting = .indented
  | _ => false

theorem Act.raise_perform (a : Act) {p : Page} (hp : p.IsTidy)
    (hlevel : a.lowers = true → 0 < p.level) :
    a.perform (p.raise k) = (a.perform p).raise k ∧ (a.perform p).IsTidy := by
  cases a with
  | text s => exact lifts_write s p hp
  | newline => exact lifts_newline p hp
  | freshLine => exact lifts_freshLine p hp
  | gap => exact lifts_id.ite (lifts_write " ") p hp
  | indent => exact lifts_deeper p hp
  | dedent => exact ⟨raise_shallower (hlevel rfl), hp⟩
  | opened s => exact lifts_enter s.setting s.opening p hp
  | closed s =>
    cases hs : s.setting with
    | inline =>
      rw [Act.perform, Act.perform, hs]
      exact lifts_write s.closing p hp
    | lines =>
      rw [Act.perform, Act.perform, hs]
      exact (lifts_write s.closing).comp lifts_freshLine p hp
    | indented =>
      obtain ⟨hfresh, htidy⟩ := lifts_freshLine (k := k) p hp
      have hpos : 0 < p.freshLine.level := by
        rw [level_freshLine]
        exact hlevel (by simp [Act.lowers, hs])
      rw [Act.perform, Act.perform, hs, Setting.leave, Setting.leave, hfresh, raise_shallower hpos]
      exact lifts_write s.closing p.freshLine.shallower htidy

/-- Acts that never go back from the outermost level. -/
def StaysUp : List Act → Page → Prop
  | [], _ => True
  | a :: rest, p => (a.lowers = true → 0 < p.level) ∧ StaysUp rest (a.perform p)

instance : ∀ (acts : List Act) (p : Page), Decidable (StaysUp acts p)
  | [], _ => .isTrue trivial
  | a :: rest, p =>
    have := instDecidableStaysUp rest (a.perform p)
    inferInstanceAs (Decidable (_ ∧ _))

theorem raise_replay : ∀ {acts : List Act} {p : Page}, p.IsTidy → StaysUp acts p →
    replay acts (p.raise k) = (replay acts p).raise k
  | [], _, _, _ => rfl
  | a :: acts, p, hp, ⟨hlevel, hrest⟩ => by
    obtain ⟨hraise, htidy⟩ := a.raise_perform (k := k) hp hlevel
    show replay acts (a.perform (p.raise k)) = _
    rw [hraise]
    exact raise_replay htidy hrest

/-! ### Programs -/

/-- Steps that, started on an empty page, never go back from the outermost level. -/
def NeverSinks (i : Indent) (steps : List Step) : Prop :=
  StaysUp (traceAll (strokesOf steps)).1 (Page.blank i)

instance (i : Indent) (steps : List Step) : Decidable (NeverSinks i steps) :=
  inferInstanceAs (Decidable (StaysUp _ _))

/-- Started some levels deeper, steps do what they do at the outermost level: they end as they do there,
as many levels deeper, and as many units of indentation stand in front of each line that is not empty. -/
def OnlyIndents (i : Indent) (k : Nat) (steps : List Step) : Prop :=
  runSteps steps { Page.blank i with level := k } = ((runSteps steps (Page.blank i)).1.raise k,
    (runSteps steps (Page.blank i)).2)

theorem NeverSinks.indents {i : Indent} {steps : List Step} (h : NeverSinks i steps) (k : Nat) :
    OnlyIndents i k steps := by
  rw [OnlyIndents, runSteps, runSteps, ← Page.raise_blank, runAll_eq_replay, runAll_eq_replay,
    raise_replay (isTidy_blank i) h]

/-! ### Strokes that come back to their level -/

theorem staysUp_append : ∀ {xs ys : List Act} {p : Page},
    StaysUp (xs ++ ys) p ↔ StaysUp xs p ∧ StaysUp ys (replay xs p)
  | [], _, _ => by simp [StaysUp, replay]
  | a :: xs, ys, p => by
    rw [List.cons_append, StaysUp, StaysUp, staysUp_append, and_assoc]; rfl

/-- From a level on, strokes never go back behind it and come back to where they started. -/
def Returns (n : Nat) (ss : List Stroke) : Prop := ∀ p : Page, n ≤ p.level →
  StaysUp (traceAll ss).1 p ∧ (replay (traceAll ss).1 p).level = p.level

variable {n : Nat} {xs ys body : List Stroke}

theorem Returns.mono {m : Nat} (h : Returns m xs) (hle : m ≤ n) : Returns n xs := fun p hp =>
  h p (Nat.le_trans hle hp)

theorem Returns.append (hx : Returns n xs) (hy : Returns n ys) : Returns n (xs ++ ys) := fun p hp => by
  obtain ⟨hup, hlevel⟩ := hx p hp
  rw [traceAll_append]
  split
  · obtain ⟨hup', hlevel'⟩ := hy (replay (traceAll xs).1 p) (hlevel ▸ hp)
    exact ⟨staysUp_append.2 ⟨hup, hup'⟩, by rw [replay_append, hlevel', hlevel]⟩
  · exact ⟨hup, hlevel⟩

theorem Returns.scope {setting : Setting} {opening closing : String}
    (h : Returns (n + setting.depth) body) : Returns n [.scope setting opening closing body] :=
  fun p hp => by
    have henter : (setting.enter opening p).level = p.level + setting.depth := level_enter ..
    obtain ⟨hup, hlevel⟩ := h (setting.enter opening p) (henter ▸ Nat.add_le_add_right hp _)
    rw [henter] at hlevel
    rw [traceAll_singleton, Stroke.trace]
    refine ⟨⟨nofun, staysUp_append.2 ⟨hup, fun hlowers => ?_, trivial⟩⟩, ?_⟩
    · have hs : setting = .indented := by simpa [Act.lowers] using hlowers
      show 0 < (replay _ (setting.enter opening p)).level
      rw [hlevel, hs]
      exact Nat.succ_pos _
    · show (replay ((traceAll body).1 ++ [Act.closed _]) (setting.enter opening p)).level = _
      rw [replay_append]
      show (setting.leave closing (replay _ _)).level = _
      rw [level_leave, hlevel, Nat.add_sub_cancel]

/-- With some scopes open, only those are closed that have been opened. -/
theorem staysUp_of_settle : ∀ {acts : List Act} {around around' : List Scope} {p : Page} {n : Nat},
    (∀ a ∈ acts, a.IsSteady) → settle around acts = some around' → p.level = n + depth around →
      StaysUp acts p
  | [], _, _, _, _, _, _, _ => trivial
  | a :: acts, around, _, p, n, h, hs, hp => by
    have hsteady := h a (List.mem_cons_self ..)
    rw [settle, List.foldlM_cons] at hs
    obtain ⟨next, hnext, hs⟩ := Option.bind_eq_some_iff.1 hs
    refine ⟨fun hlowers => ?_, staysUp_of_settle (fun b hb => h b (List.mem_cons_of_mem _ hb)) hs
      (hsteady.level hnext hp)⟩
    cases a with
    | closed s =>
      obtain rfl := Act.follow_closed hnext
      have hs : s.setting = .indented := by simpa [Act.lowers] using hlowers
      rw [depth, List.countP_cons] at hp
      simp [hs] at hp
      omega
    | dedent => exact hsteady.elim
    | text | newline | freshLine | gap | indent | opened => cases hlowers

theorem returns_of_isSteady {ss : List Stroke} (h : EveryOf Act.IsSteady ss) : Returns 0 ss :=
  fun _ _ => ⟨staysUp_of_settle h.trace (settle_traceAll ss []) rfl,
    level_replay h.trace (settle_traceAll ss []) rfl⟩

end TypeGen.Code
