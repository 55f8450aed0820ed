import TypeGen.Code.Page

/-!
Traces. What strokes do to a page is a sequence of acts, among them the opening and the closing of
scopes, and which acts these are depends on how the bodies end but not on the page. However they end,
every scope that is opened is closed, the innermost first.
-/

namespace TypeGen.Code

/-- How a scope is set, what opens it and what closes it. -/
structure Scope where
  setting : Setting
  opening : String
  closing : String
  deriving DecidableEq

inductive Act where
  | text (s : String)
  | newline
  | freshLine
  | gap
  | indent
  | dedent
  | opened (s : Scope)
  | closed (s : Scope)

def Act.perform : Act → Page → Page
  | .text s, p => p.write s
  | .newline, p => p.newline
  | .freshLine, p => p.freshLine
  | .gap, p => if p.atLineStart then p else p.write " "
  | .indent, p => p.deeper
  | .dedent, p => p.shallower
  | .opened s, p => s.setting.enter s.opening p
  | .closed s, p => s.setting.leave s.closing p

/-- Performs acts in order. -/
def replay (acts : List Act) (p : Page) : Page := acts.foldl (fun p a => a.perform p) p

theorem replay_append (xs ys : List Act) (p : Page) :
    replay (xs ++ ys) p = replay ys (replay xs p) := List.foldl_append

/-- The scopes that are open, the innermost first. -/
def Act.follow (around : List Scope) : Act → Option (List Scope)
  | .opened s => some (s :: around)
  | .closed s =>
    match around with
    | inner :: outer => if inner = s then some outer else none
    | [] => none
  | _ => some around

/-- Only the innermost scope can be closed. -/
theorem Act.follow_closed {s : Scope} {around around' : List Scope}
    (h : (Act.closed s).follow around = some around') : around = s :: around' := by
  cases around with
  | nil => cases h
  | cons inner outer =>
    simp only [Act.follow] at h
    split at h
    next hs => cases h; rw [hs]
    next => cases h

def settle (around : List Scope) (acts : List Act) : Option (List Scope) := acts.foldlM Act.follow around

theorem settle_append {around : List Scope} {xs ys : List Act} (hx : settle around xs = some around)
    (hy : settle around ys = some around) : settle around (xs ++ ys) = some around := by
  rw [settle, List.foldlM_append]
  exact Option.bind_eq_some_iff.2 ⟨around, hx, hy⟩

theorem settle_scope {around : List Scope} {s : Scope} {acts : List Act}
    (h : settle (s :: around) acts = some (s :: around)) :
    settle around (.opened s :: (acts ++ [.closed s])) = some around := by
  rw [settle, List.foldlM_cons]
  change settle (s :: around) (acts ++ [.closed s]) = some around
  rw [settle, List.foldlM_append]
  refine Option.bind_eq_some_iff.2 ⟨s :: around, h, ?_⟩
  rw [List.foldlM_cons, Act.follow, if_pos rfl]
  rfl

mutual

/-- The acts of a stroke, and how it ends. -/
def Stroke.trace : Stroke → List Act × Ending
  | .text s => ([.text s], .done)
  | .newline => ([.newline], .done)
  | .freshLine => ([.freshLine], .done)
  | .gap => ([.gap], .done)
  | .indent => ([.indent], .done)
  | .dedent => ([.dedent], .done)
  | .scope setting opening closing body =>
    let s : Scope := ⟨setting, opening, closing⟩
    (.opened s :: ((traceAll body).1 ++ [.closed s]), (traceAll body).2)
  | .attempt body => ((traceAll body).1, (traceAll body).2.absorb)
  | .ensure body after =>
    match traceAll body with
    | (acts, .unwound cause) => (acts, .unwound cause)
    | (acts, e) =>
      match traceAll after with
      | (more, .done) => (acts ++ more, e)
      | (more, e') => (acts ++ more, e')
  | .fail cause => ([], .failed cause)
  | .unwind cause => ([], .unwound cause)

def traceAll : List Stroke → List Act × Ending
  | [] => ([], .done)
  | s :: rest =>
    match s.trace with
    | (acts, .done) => (acts ++ (traceAll rest).1, (traceAll rest).2)
    | (acts, e) => (acts, e)

end

mutual

/-- What is carried out is the trace. -/
theorem Stroke.run_eq_replay : ∀ (s : Stroke) (p : Page),
    s.run p = (replay s.trace.1 p, s.trace.2)
  | .text _, _ => rfl
  | .newline, _ => rfl
  | .freshLine, _ => rfl
  | .gap, _ => rfl
  | .indent, _ => rfl
  | .dedent, _ => rfl
  | .scope setting opening closing body, p => by
    rw [Stroke.run, Stroke.trace, runAll_eq_replay body]
    simp only [replay, List.foldl_cons, List.foldl_append, List.foldl_nil, Act.perform]
  | .attempt body, p => by rw [Stroke.run, Stroke.trace, runAll_eq_replay body]
  | .ensure body after, p => by
    rw [Stroke.run, Stroke.trace, runAll_eq_replay body]
    cases traceAll body with | mk acts e =>
    cases e with
    | unwound cause => rfl
    | done =>
      simp only [runAll_eq_replay after]
      cases traceAll after with | mk more e' =>
      cases e' <;> simp only [replay_append]
    | failed cause =>
      simp only [runAll_eq_replay after]
      cases traceAll after with | mk more e' =>
      cases e' <;> simp only [replay_append]
  | .fail _, _ => rfl
  | .unwind _, _ => rfl

theorem runAll_eq_replay : ∀ (ss : List Stroke) (p : Page),
    runAll ss p = (replay (traceAll ss).1 p, (traceAll ss).2)
  | [], _ => rfl
  | s :: rest, p => by
    rw [runAll, traceAll, Stroke.run_eq_replay s]
    cases s.trace with | mk acts e =>
    cases e with
    | done => simp only [runAll_eq_replay rest, replay_append]
    | failed cause => rfl
    | unwound cause => rfl

end

/-- Strokes behind one that does not end well are not reached. -/
theorem traceAll_cons (s : Stroke) (rest : List Stroke) : traceAll (s :: rest) =
    if s.trace.2 = .done then (s.trace.1 ++ (traceAll rest).1, (traceAll rest).2) else s.trace := by
  rw [traceAll]
  split
  next h => rw [h, if_pos rfl]
  next hne h =>
    rw [h, if_neg]
    rintro rfl
    exact hne rfl

theorem traceAll_append (xs ys : List Stroke) : traceAll (xs ++ ys) =
    if (traceAll xs).2 = .done then ((traceAll xs).1 ++ (traceAll ys).1, (traceAll ys).2)
    else traceAll xs := by
  induction xs with
  | nil => rfl
  | cons x xs ih =>
    rw [List.cons_append, traceAll_cons, traceAll_cons, ih]
    by_cases hx : x.trace.2 = .done
    · rw [if_pos hx, if_pos hx]
      split <;> simp
    · rw [if_neg hx, if_neg hx, if_neg hx]

theorem traceAll_singleton (s : Stroke) : traceAll [s] = s.trace := by
  rw [traceAll_cons]
  split
  next h => rw [traceAll, List.append_nil, ← h]
  next => rfl

theorem runAll_append_eq (xs ys : List Stroke) (p : Page) : runAll (xs ++ ys) p =
    if (runAll xs p).2 = .done then runAll ys (runAll xs p).1 else runAll xs p := by
  simp only [runAll_eq_replay, traceAll_append]
  split
  · rw [replay_append]
  · rfl

theorem runAll_scope (setting : Setting) (opening closing : String) (body : List Stroke) (p : Page) :
    runAll [.scope setting opening closing body] p =
      (setting.leave closing (runAll body (setting.enter opening p)).1,
        (runAll body (setting.enter opening p)).2) := by
  simp only [runAll_eq_replay, traceAll_singleton, Stroke.trace, replay, List.foldl_cons,
    List.foldl_append, List.foldl_nil, Act.perform]

theorem runAll_append {xs ys : List Stroke} {p q : Page} (h : runAll xs p = (q, .done)) :
    runAll (xs ++ ys) p = runAll ys q := by
  induction xs generalizing p with
  | nil => cases h; rfl
  | cons x xs ih =>
    rw [List.cons_append]
    simp only [runAll] at h ⊢
    split at h
    next hx => exact ih h
    next q' e hne hx => cases h; exact (hne rfl).elim

mutual

/-- Behind a stroke the same scopes are open as ahead of it. -/
theorem Stroke.settle_trace : ∀ (s : Stroke) (around : List Scope),
    settle around s.trace.1 = some around
  | .text _, _ => rfl
  | .newline, _ => rfl
  | .freshLine, _ => rfl
  | .gap, _ => rfl
  | .indent, _ => rfl
  | .dedent, _ => rfl
  | .scope setting opening closing body, around => by
    rw [Stroke.trace]
    exact settle_scope (settle_traceAll body _)
  | .attempt body, around => by rw [Stroke.trace]; exact settle_traceAll body around
  | .ensure body after, around => by
    have hbody := settle_traceAll body around
    have hafter := settle_traceAll after around
    rw [Stroke.trace]
    split
    next h => rw [h] at hbody; exact hbody
    next h =>
      rw [h] at hbody
      split <;> next h' => rw [h'] at hafter; exact settle_append hbody hafter
  | .fail _, _ => rfl
  | .unwind _, _ => rfl

theorem settle_traceAll : ∀ (ss : List Stroke) (around : List Scope),
    settle around (traceAll ss).1 = some around
  | [], _ => rfl
  | s :: rest, around => by
    have hs := Stroke.settle_trace s around
    rw [traceAll]
    split
    next h => rw [h] at hs; exact settle_append hs (settle_traceAll rest around)
    next h => rw [h] at hs; exact hs

end

/-! ### What all acts have in common -/

variable {Q : Act → Prop}

mutual

/-- Every act that a stroke may come to has a property. -/
def Stroke.Every (Q : Act → Prop) : Stroke → Prop
  | .text s => Q (.text s)
  | .newline => Q .newline
  | .freshLine => Q .freshLine
  | .gap => Q .gap
  | .indent => Q .indent
  | .dedent => Q .dedent
  | .scope setting opening closing body =>
    Q (.opened ⟨setting, opening, closing⟩) ∧ Q (.closed ⟨setting, opening, closing⟩) ∧
      EveryOf Q body
  | .attempt body => EveryOf Q body
  | .ensure body after => EveryOf Q body ∧ EveryOf Q after
  | .fail _ => True
  | .unwind _ => True

def EveryOf (Q : Act → Prop) : List Stroke → Prop
  | [] => True
  | s :: rest => s.Every Q ∧ EveryOf Q rest

end

theorem everyOf_append {xs ys : List Stroke} :
    EveryOf Q (xs ++ ys) ↔ EveryOf Q xs ∧ EveryOf Q ys := by
  induction xs with
  | nil => simp [EveryOf]
  | cons x xs ih => simp [EveryOf, ih, and_assoc]

mutual

theorem Stroke.Every.trace : ∀ {s : Stroke}, s.Every Q → ∀ a ∈ s.trace.1, Q a
  | .text _, h => by simpa [Stroke.trace, Stroke.Every] using h
  | .newline, h => by simpa [Stroke.trace, Stroke.Every] using h
  | .freshLine, h => by simpa [Stroke.trace, Stroke.Every] using h
  | .gap, h => by simpa [Stroke.trace, Stroke.Every] using h
  | .indent, h => by simpa [Stroke.trace, Stroke.Every] using h
  | .dedent, h => by simpa [Stroke.trace, Stroke.Every] using h
  | .scope .., ⟨hopened, hclosed, hbody⟩ => by
    have ih := EveryOf.trace hbody
    rw [Stroke.trace]
    simp only [List.mem_cons, List.mem_append, List.not_mem_nil, or_false]
    rintro a (rfl | ha | rfl)
    · exact hopened
    · exact ih a ha
    · exact hclosed
  | .attempt body, h => by
    have hbody : EveryOf Q body := h
    rw [Stroke.trace]; exact hbody.trace
  | .ensure body after, ⟨hb, ha⟩ => by
    have hbody := EveryOf.trace hb
    have hafter := EveryOf.trace ha
    rw [Stroke.trace]
    split
    next h => rw [h] at hbody; exact hbody
    next h =>
      rw [h] at hbody
      split <;> next h' =>
        rw [h'] at hafter
        exact fun a hm => (List.mem_append.1 hm).elim (hbody a) (hafter a)
  | .fail _, _ => by simp [Stroke.trace]
  | .unwind _, _ => by simp [Stroke.trace]

theorem EveryOf.trace : ∀ {ss : List Stroke}, EveryOf Q ss → ∀ a ∈ (traceAll ss).1, Q a
  | [], _ => by simp [traceAll]
  | s :: rest, ⟨hs, hrest⟩ => by
    have ih := Stroke.Every.trace hs
    have ih' := EveryOf.trace hrest
    rw [traceAll]
    split
    next h => rw [h] at ih; exact fun a hm => (List.mem_append.1 hm).elim (ih a) (ih' a)
    next h => rw [h] at ih; exact ih

end

/-! ### What is kept of a page -/

/-- Strokes behind which a page is as it has to be, if it was so ahead of them. -/
def Preserves (P : Page → Prop) (ss : List Stroke) : Prop := ∀ p : Page, P p → P (runAll ss p).1

variable {P : Page → Prop} {xs ys : List Stroke}

theorem replay_keeps {acts : List Act} (h : ∀ a ∈ acts, ∀ p, P p → P (a.perform p)) :
    ∀ {p : Page}, P p → P (replay acts p) := by
  induction acts with
  | nil => exact id
  | cons a acts ih =>
    obtain ⟨ha, hrest⟩ := List.forall_mem_cons.1 h
    exact fun hp => ih hrest (ha _ hp)

theorem preserves_of_every (h : EveryOf (fun a => ∀ p, P p → P (a.perform p)) xs) : Preserves P xs := by
  intro p hp
  rw [runAll_eq_replay]
  exact replay_keeps h.trace hp

theorem preserves_nil : Preserves P [] := fun _ hp => hp

theorem Preserves.append (hx : Preserves P xs) (hy : Preserves P ys) : Preserves P (xs ++ ys) := by
  intro p hp
  rw [runAll_append_eq]
  split
  · exact hy _ (hx p hp)
  · exact hx p hp

theorem preserves_flatMap {α : Type} {as : List α} {f : α → List Stroke}
    (h : ∀ a ∈ as, Preserves P (f a)) : Preserves P (as.flatMap f) := by
  induction as with
  | nil => exact preserves_nil
  | cons a as ih =>
    obtain ⟨ha, has⟩ := List.forall_mem_cons.1 h
    rw [List.flatMap_cons]
    exact ha.append (ih has)

end TypeGen.Code
