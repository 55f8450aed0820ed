import TypeGen.Proofs.Code.Nesting

/-!
Cutting. A failure ends the body that it stands in and, from scope to scope, the bodies around it, up to
a branch or an item, which keeps it to itself. So a program that fails does what a program does whose
bodies end where the failures are.
-/

namespace TypeGen.Code

/-! ### Strokes up to a failure -/

mutual

/-- A stroke fails if it is a failure or something fails in it, unless that is only attempted. -/
def Stroke.fails : Stroke → Bool
  | .fail _ => true
  | .scope _ _ _ body => anyStrokeFails body
  | .ensure body after => anyStrokeFails body || anyStrokeFails after
  | _ => false

def anyStrokeFails : List Stroke → Bool
  | [] => false
  | s :: rest => s.fails || anyStrokeFails rest

end

mutual

/-- A stroke with every body in it cut; nothing is left of a failure. -/
def Stroke.cut : Stroke → List Stroke
  | .fail _ => []
  | .scope setting opening closing body => [.scope setting opening closing (cutStrokes body)]
  | .attempt body => [.attempt (cutStrokes body)]
  | .ensure body after => [.ensure (cutStrokes body) (cutStrokes after)]
  | s => [s]

/-- Strokes up to the first that fails. -/
def cutStrokes : List Stroke → List Stroke
  | [] => []
  | s :: rest => s.cut ++ (if s.fails then [] else cutStrokes rest)

end

/-- How strokes may end if one of them fails, and if none does. -/
def Ending.Suits (e : Ending) (fails : Bool) : Prop := if fails then e ≠ .done else e.absorb = e

theorem Ending.absorb_absorb (e : Ending) : e.absorb.absorb = e.absorb := by cases e <;> rfl

/-- A body and what follows it whatever the body fails at. -/
theorem trace_ensure (body after : List Stroke) : (Stroke.ensure body after).trace =
    if (traceAll body).2.absorb ≠ .done then traceAll body
    else ((traceAll body).1 ++ (traceAll after).1,
      if (traceAll after).2 = .done then (traceAll body).2 else (traceAll after).2) := by
  rw [Stroke.trace]
  split
  next h => rw [h]; rfl
  next hne h =>
    have habsorb : (traceAll body).2.absorb = .done := by
      rw [h]
      rename_i e
      cases e with
      | unwound cause => exact absurd rfl (hne cause)
      | done | failed => rfl
    rw [if_neg (not_not.2 habsorb), h]
    split
    next h' => rw [h']; rfl
    next hne' h' =>
      rw [h', if_neg]
      rintro rfl
      exact hne' rfl

theorem Ending.Suits.after {e e' : Ending} {b b' : Bool} (h : e.Suits b) (h' : e'.Suits b') :
    (if e = .done then e' else e).Suits (b || b') := by
  cases b <;> cases b' <;> cases e <;> simp_all [Suits, absorb]

theorem Ending.Suits.ensure {e e' : Ending} {b b' : Bool} (h : e.Suits b) (h' : e'.Suits b') :
    (if e.absorb ≠ .done then e else if e' = .done then e else e').Suits (b || b') := by
  cases b <;> cases b' <;> cases e <;> cases e' <;> simp_all [Suits, absorb]

mutual

theorem Stroke.suits_fails : ∀ s : Stroke, s.trace.2.Suits s.fails
  | .text _ | .newline | .freshLine | .gap | .indent | .dedent | .unwind _ => rfl
  | .fail _ => by simp [Ending.Suits, Stroke.fails, Stroke.trace]
  | .scope _ _ _ body => suits_anyStrokeFails body
  | .attempt body => Ending.absorb_absorb _
  | .ensure body after => by
    rw [Stroke.fails, trace_ensure, apply_ite Prod.snd]
    exact (suits_anyStrokeFails body).ensure (suits_anyStrokeFails after)

theorem suits_anyStrokeFails : ∀ ss : List Stroke, (traceAll ss).2.Suits (anyStrokeFails ss)
  | [] => rfl
  | s :: rest => by
    rw [anyStrokeFails, traceAll_cons, apply_ite Prod.snd]
    exact (Stroke.suits_fails s).after (suits_anyStrokeFails rest)

end

mutual

/-- Cutting keeps what is done, and takes the failure away. -/
theorem Stroke.trace_cut : ∀ s : Stroke, traceAll s.cut = (s.trace.1, s.trace.2.absorb)
  | .text _ | .newline | .freshLine | .gap | .indent | .dedent => rfl
  | .fail _ => rfl
  | .unwind _ => rfl
  | .scope setting opening closing body => by
    rw [Stroke.cut, traceAll_singleton, Stroke.trace, Stroke.trace, trace_cutStrokes body]
  | .attempt body => by
    rw [Stroke.cut, traceAll_singleton, Stroke.trace, Stroke.trace, trace_cutStrokes body]
  | .ensure body after => by
    rw [Stroke.cut, traceAll_singleton, trace_ensure, trace_ensure, trace_cutStrokes body,
      trace_cutStrokes after]
    obtain ⟨acts, e⟩ := traceAll body
    obtain ⟨more, e'⟩ := traceAll after
    cases e <;> cases e' <;> rfl

theorem trace_cutStrokes : ∀ ss : List Stroke,
    traceAll (cutStrokes ss) = ((traceAll ss).1, (traceAll ss).2.absorb)
  | [] => rfl
  | s :: rest => by
    have hsuits := Stroke.suits_fails s
    rw [cutStrokes, traceAll_cons]
    cases hfails : s.fails with
    | true =>
      rw [hfails] at hsuits
      rw [if_pos rfl, List.append_nil, Stroke.trace_cut s, if_neg hsuits]
    | false =>
      rw [hfails] at hsuits
      have hsame : s.trace.2.absorb = s.trace.2 := hsuits
      rw [if_neg Bool.false_ne_true, traceAll_append, Stroke.trace_cut s, hsame, trace_cutStrokes rest]
      split
      · rfl
      · rw [hsame]

end

/-! ### Steps up to a failure -/

mutual

/-- A step fails if it is a failure or its body fails. Branches and items keep failures to themselves. -/
def Step.fails : Step → Bool
  | .fail _ => true
  | .semicolon body | .spaced body | .braces body | .parens body | .angles body => anyFails body
  | .block _ _ body | .inSpace _ body | .struct _ _ _ body | .switch _ body => anyFails body
  | .case _ _ body | .default _ body | .define _ body => anyFails body
  | _ => false

def anyFails : List Step → Bool
  | [] => false
  | s :: rest => s.fails || anyFails rest

end

mutual

/-- A step with every body in it cut; nothing is left of a failure. -/
def Step.cut : Step → List Step
  | .fail _ => []
  | .semicolon body => [.semicolon (cutOf body)]
  | .spaced body => [.spaced (cutOf body)]
  | .braces body => [.braces (cutOf body)]
  | .parens body => [.parens (cutOf body)]
  | .angles body => [.angles (cutOf body)]
  | .block header closing body => [.block header closing (cutOf body)]
  | .inSpace name body => [.inSpace name (cutOf body)]
  | .struct name params specialization body => [.struct name params specialization (cutOf body)]
  | .switch subject body => [.switch subject (cutOf body)]
  | .case label leaves body => [.case label leaves (cutOf body)]
  | .default leaves body => [.default leaves (cutOf body)]
  | .ifElse condition body otherwise => [.ifElse condition (cutOf body) (cutOf otherwise)]
  | .ifChain arms otherwise => [.ifChain (cutOfArms arms) (cutOf otherwise)]
  | .join separator items => [.join separator (cutOfItems items)]
  | .define f body => [.define f (cutOf body)]
  | s => [s]

/-- Steps up to the first that fails. -/
def cutOf : List Step → List Step
  | [] => []
  | s :: rest => s.cut ++ (if s.fails then [] else cutOf rest)

def cutOfItems : List (List Step) → List (List Step)
  | [] => []
  | item :: rest => cutOf item :: cutOfItems rest

def cutOfArms : List (String × List Step) → List (String × List Step)
  | [] => []
  | (condition, body) :: rest => (condition, cutOf body) :: cutOfArms rest

end

/-! ### Strokes of cut steps -/

/-- Whether some of the strokes fail, and what they are up to there. -/
structure Cut (ss : List Stroke) (fails : Bool) (left : List Stroke) : Prop where
  fails : anyStrokeFails ss = fails
  left : cutStrokes ss = left

section Cuts

variable {xs ys xs' ys' : List Stroke} {b b' : Bool}

theorem Cut.append (hx : Cut xs b xs') (hy : Cut ys b' ys') :
    Cut (xs ++ ys) (b || b') (xs' ++ (if b then [] else ys')) := by
  have happend : ∀ xs, anyStrokeFails (xs ++ ys) = (anyStrokeFails xs || anyStrokeFails ys) ∧
      cutStrokes (xs ++ ys) = cutStrokes xs ++ (if anyStrokeFails xs then [] else cutStrokes ys) :=
    fun xs => by
      induction xs with
      | nil => exact ⟨rfl, rfl⟩
      | cons x xs ih =>
        rw [List.cons_append, cutStrokes, cutStrokes, anyStrokeFails, anyStrokeFails, ih.1, ih.2]
        cases x.fails <;> simp
  obtain ⟨hfails, hleft⟩ := happend xs
  exact ⟨by rw [hfails, hx.fails, hy.fails], by rw [hleft, hx.fails, hx.left, hy.left]⟩

/-- Behind strokes that do not fail. -/
theorem Cut.after (hy : Cut ys b ys') (hx : Cut xs false xs') : Cut (xs ++ ys) b (xs' ++ ys') := by
  simpa using hx.append hy

theorem Cut.scope (h : Cut xs b xs') (setting : Setting) (opening closing : String) :
    Cut [.scope setting opening closing xs] b [.scope setting opening closing xs'] := by
  obtain ⟨rfl, rfl⟩ := h
  exact ⟨Bool.or_false _, by simp [cutStrokes, Stroke.cut]⟩

theorem Cut.attempt (h : Cut xs b xs') : Cut [.attempt xs] false [.attempt xs'] := by
  obtain ⟨-, rfl⟩ := h
  exact ⟨rfl, by simp [cutStrokes, Stroke.cut]⟩

theorem Cut.ensure (hx : Cut xs b xs') (hy : Cut ys false ys') :
    Cut [.ensure xs ys] b [.ensure xs' ys'] := by
  obtain ⟨rfl, rfl⟩ := hx
  obtain ⟨hfails, rfl⟩ := hy
  exact ⟨by simp [anyStrokeFails, Stroke.fails, hfails], by simp [cutStrokes, Stroke.cut]⟩

theorem cut_nil : Cut [] false [] := ⟨rfl, rfl⟩

theorem cut_text (s : String) : Cut [.text s] false [.text s] := ⟨rfl, rfl⟩

theorem cut_newline : Cut [.newline] false [.newline] := ⟨rfl, rfl⟩

theorem cut_lines : ∀ ss : List String, Cut (strokesOfLines ss) false (strokesOfLines ss)
  | [] => cut_nil
  | s :: ss => ((cut_lines ss).after cut_newline).after (cut_text s)

theorem Cut.braces (h : Cut xs b xs') : Cut (strokesOfBraces xs) b (strokesOfBraces xs') :=
  (h.scope .indented "\x7b" "\x7d").after (⟨rfl, rfl⟩ : Cut [.gap] false [.gap])

theorem Cut.case (h : Cut xs b xs') (label : String) (leaves : Bool) :
    Cut (strokesOfCase label leaves xs) b (strokesOfCase label leaves xs') := by
  refine (h.ensure ?_).scope _ _ _
  split
  · exact cut_newline.after (cut_text _)
  · exact cut_nil

/-- A branch behind others, or the last one. -/
theorem Cut.branch (h : Cut xs b xs') : Cut (strokesOfBraces [.attempt xs]) false
    (strokesOfBraces [.attempt xs']) := h.attempt.braces

end Cuts

theorem Cut.one {s t : Step} {b : Bool} (h : Cut s.strokes b t.strokes) :
    Cut s.strokes b (strokesOf [t]) := by rwa [strokesOf_singleton]

theorem isEmpty_cutOfArms (arms : List (String × List Step)) :
    (cutOfArms arms).isEmpty = arms.isEmpty := by cases arms <;> rfl

mutual

/-- What is left of a step that is cut has the strokes that are left of its strokes. -/
theorem Step.cut_strokes : ∀ s : Step, Cut s.strokes s.fails (strokesOf s.cut)
  | .text _ | .line _ | .newline | .blank | .indent | .dedent => ⟨rfl, rfl⟩
  | .fail _ | .unwind _ => ⟨rfl, rfl⟩
  | .doc _ => .one ((cut_lines _).after (⟨rfl, rfl⟩ : Cut [.freshLine] false [.freshLine]))
  | .template .. | .includes _ => .one (cut_lines _)
  | .declare _ => .one (((cut_text _).scope ..).after (cut_lines _))
  | .semicolon body | .spaced body | .parens body | .angles body | .block _ _ body
  | .inSpace (some _) body | .switch _ body => .one ((cut_strokesOf body).scope ..)
  | .inSpace none body => .one (cut_strokesOf body)
  | .braces body => .one (cut_strokesOf body).braces
  | .struct _ _ _ body | .define _ body => .one (((cut_strokesOf body).scope ..).after (cut_lines _))
  | .case _ _ body | .default _ body => .one ((cut_strokesOf body).case ..)
  | .ifElse condition body otherwise => by
    have hbranch := (cut_nil.after (cut_strokesOf body).branch).after
      (cut_text ("if" ++ " (" ++ condition ++ ")"))
    have helse := (cut_strokesOf otherwise).branch.after (cut_text " else")
    exact .one (cut_newline.after (helse.after hbranch))
  | .ifChain arms otherwise => by
    have hotherwise := (cut_strokesOf otherwise).branch
    have helse : Cut (if arms.isEmpty then [] else [.text " else"]) false
        (if (cutOfArms arms).isEmpty then [] else [.text " else"]) := by
      rw [isEmpty_cutOfArms]
      split
      · exact cut_nil
      · exact cut_text _
    exact .one (cut_newline.after (hotherwise.after (helse.after (cut_branches arms "if"))))
  | .join separator items => .one (cut_join separator items)

theorem cut_strokesOf : ∀ ss : List Step, Cut (strokesOf ss) (anyFails ss) (strokesOf (cutOf ss))
  | [] => cut_nil
  | s :: rest => by
    have happend := (Step.cut_strokes s).append (cut_strokesOf rest)
    rw [strokesOf, anyFails, cutOf, strokesOf_append, apply_ite strokesOf]
    exact happend

theorem cut_join (separator : String) : ∀ items : List (List Step),
    Cut (strokesOfJoin separator (strokesOfItems items)) false
      (strokesOfJoin separator (strokesOfItems (cutOfItems items)))
  | [] => cut_nil
  | [last] => (cut_strokesOf last).attempt
  | item :: next :: rest =>
    ((cut_join separator (next :: rest)).after (cut_text separator)).after (cut_strokesOf item).attempt

theorem cut_branches : ∀ (arms : List (String × List Step)) (keyword : String),
    Cut (strokesOfBranches keyword (strokesOfArms arms)) false
      (strokesOfBranches keyword (strokesOfArms (cutOfArms arms)))
  | [], _ => cut_nil
  | (condition, body) :: rest, keyword =>
    (cut_branches rest " else if").after
      ((cut_strokesOf body).branch.after (cut_text (keyword ++ " (" ++ condition ++ ")")))

end

/-! ### Programs without failures -/

/-- No step is a failure, at any depth. -/
abbrev FailFree (steps : List Step) : Prop := AllOf (fun s => ∀ cause, s ≠ .fail cause) steps

mutual

theorem Step.failFree_cut : ∀ s : Step, FailFree s.cut
  | .fail _ => trivial
  | .text _ | .line _ | .newline | .blank | .indent | .dedent | .doc _ | .template ..
  | .declare _ | .includes _ | .unwind _ => ⟨nofun, trivial⟩
  | .semicolon body | .spaced body | .braces body | .parens body | .angles body | .block _ _ body
  | .inSpace _ body | .struct _ _ _ body | .switch _ body | .case _ _ body | .default _ body
  | .define _ body => ⟨⟨nofun, failFree_cutOf body⟩, trivial⟩
  | .ifElse _ body otherwise => ⟨⟨nofun, failFree_cutOf body, failFree_cutOf otherwise⟩, trivial⟩
  | .ifChain arms otherwise => ⟨⟨nofun, failFree_cutOfArms arms, failFree_cutOf otherwise⟩, trivial⟩
  | .join _ items => ⟨⟨nofun, failFree_cutOfItems items⟩, trivial⟩

theorem failFree_cutOf : ∀ steps : List Step, FailFree (cutOf steps)
  | [] => trivial
  | s :: rest => by
    refine allOf_append.2 ⟨Step.failFree_cut s, ?_⟩
    split
    · trivial
    · exact failFree_cutOf rest

theorem failFree_cutOfItems : ∀ items : List (List Step),
    AllOfItems (fun s => ∀ cause, s ≠ .fail cause) (cutOfItems items)
  | [] => trivial
  | item :: rest => ⟨failFree_cutOf item, failFree_cutOfItems rest⟩

theorem failFree_cutOfArms : ∀ arms : List (String × List Step),
    AllOfArms (fun s => ∀ cause, s ≠ .fail cause) (cutOfArms arms)
  | [] => trivial
  | (_, body) :: rest => ⟨failFree_cutOf body, failFree_cutOfArms rest⟩

end

/-- To fail early is to end early. Cut at its first failing step, each body ends well and leaves the page
as it does when it fails; so what is left has no failures, and an unwinding is the same with and without
them. -/
theorem runSteps_cutOf (steps : List Step) (p : Page) :
    runSteps (cutOf steps) p = ((runSteps steps p).1, (runSteps steps p).2.absorb) ∧
      FailFree (cutOf steps) := by
  refine ⟨?_, failFree_cutOf steps⟩
  rw [runSteps, runSteps, ← (cut_strokesOf steps).left, runAll_eq_replay, runAll_eq_replay,
    trace_cutStrokes]

example : cutOf [.switch "x" [.case "1" true [.line "a", .fail "stop", .line "b"], .newline], .blank] =
    [.switch "x" [.case "1" true [.line "a"]]] := rfl

example : cutOf [.join ", " [[.text "a", .fail "stop"], [.text "b"]], .newline] =
    [.join ", " [[.text "a"], [.text "b"]], .newline] := rfl

end TypeGen.Code
