import TypeGen.Proofs.Code.Reading
import TypeGen.Proofs.Code.Trace
import TypeGen.Text.Blank

/-!
Brackets. Of the brackets that a text opens, those that it has yet to close are due, the last one
first. While a trace is carried out, what is due are the closing brackets of the scopes that are open.
-/

namespace TypeGen.Code

open TypeGen.Text

/-- Kinds of brackets: what opens one with what closes it. -/
structure Brackets where
  pairs : List (Char × Char)
  blanks : ['\n', ' ', '\t'].all fun c => pairs.all fun b => b.1 ≠ c ∧ b.2 ≠ c

namespace Brackets

variable (b : Brackets)

def contains (c : Char) : Bool := b.pairs.any fun pair => pair.1 = c || pair.2 = c

/-- One character; `due` are the brackets that have yet to come, the next one first. -/
def step (due : List Char) (c : Char) : Option (List Char) :=
  match b.pairs.find? (·.1 = c) with
  | some pair => some (pair.2 :: due)
  | none =>
    if b.pairs.any (·.2 = c) then
      match due with
      | next :: later => if next = c then some later else none
      | [] => none
    else some due

theorem step_of_contains {c : Char} (h : b.contains c = false) (due : List Char) :
    b.step due c = some due := by
  rw [contains, List.any_eq_false] at h
  have hopen : b.pairs.find? (·.1 = c) = none :=
    List.find?_eq_none.2 fun pair hp => by have := h pair hp; simp_all
  have hclose : b.pairs.any (·.2 = c) = false :=
    List.any_eq_false.2 fun pair hp => by have := h pair hp; simp_all
  unfold step
  rw [hopen, hclose]
  rfl

/-- What is due later does not matter. -/
theorem step_append {due due' : List Char} {c : Char} (h : b.step due c = some due')
    (later : List Char) : b.step (due ++ later) c = some (due' ++ later) := by
  unfold step at h ⊢
  split at h
  next => cases h; rfl
  next =>
    split at h
    next hclose =>
      rw [if_pos hclose]
      split at h
      next next_ rest =>
        split at h
        next heq => cases h; simp [heq]
        next => cases h
      next => cases h
    next hclose => cases h; rw [if_neg hclose]

theorem step_blank {c : Char} (hc : c ∈ ['\n', ' ', '\t']) (due : List Char) :
    b.step due c = some due := by
  refine b.step_of_contains (List.any_eq_false.2 fun pair hp => ?_) due
  have hpair := List.all_eq_true.1 (List.all_eq_true.1 b.blanks c hc) pair hp
  simp_all

theorem step_newline (due : List Char) : b.step due '\n' = some due := b.step_blank (by simp) due

def reader : Reader (List Char) where
  step := b.step
  margin := fun _ c hc => b.step_blank (by rcases hc with rfl | rfl <;> simp) _

/-- Texts without a bracket. -/
def Spares (t : String) : Prop := ∀ c ∈ t.toList, b.contains c = false

theorem read_of_spares {t : String} (h : b.Spares t) (due : List Char) :
    b.reader.read due t.toList = some due :=
  b.reader.read_of_idle fun c hc => b.step_of_contains (h c hc) due

theorem read_later {due due' : List Char} {cs : List Char} (h : b.reader.read due cs = some due')
    (later : List Char) : b.reader.read (due ++ later) cs = some (due' ++ later) := by
  induction cs generalizing due with
  | nil => cases h; rfl
  | cons c cs ih =>
    rw [Reader.read_cons] at h ⊢
    obtain ⟨next, hnext, h⟩ := Option.bind_eq_some_iff.1 h
    exact Option.bind_eq_some_iff.2 ⟨next ++ later, b.step_append hnext later, ih h⟩

/-- A text whose brackets match. -/
def IsBalanced (t : String) : Prop := b.reader.read [] t.toList = some []

theorem IsBalanced.read {b : Brackets} {t : String} (h : b.IsBalanced t) (due : List Char) :
    b.reader.read due t.toList = some due := b.read_later h due

/-- Blank characters are no brackets, so a line may begin anywhere. -/
theorem rests (due : List Char) : b.reader.Rests due := fun c hc =>
  b.reader.margin (b.step_newline due) c hc

/-! ### Scopes -/

/-- The brackets that the opening of a scope asks for. -/
def owed (s : Scope) : List Char := (b.reader.read [] s.opening.toList).getD []

/-- The closing of a scope has the brackets that its opening asks for. -/
def Matches (s : Scope) : Prop :=
  b.reader.read [] s.opening.toList = some (b.owed s) ∧
    b.reader.read (b.owed s) s.closing.toList = some []

/-- Acts that keep brackets matched. -/
def Keeps : Act → Prop
  | .text t => b.IsBalanced t
  | .opened s => b.Matches s
  | .closed s => b.Matches s
  | _ => True

/-- With some scopes open, their closing brackets are what is due since `p`. -/
def Tracks (p q : Page) (around : List Scope) : Prop :=
  b.reader.Follows p [] q (around.flatMap b.owed)

theorem Tracks.perform {b : Brackets} {p q : Page} {around around' : List Scope} {a : Act}
    (h : b.Tracks p q around) (ha : b.Keeps a) (hfollow : a.follow around = some around') :
    b.Tracks p (a.perform q) around' := by
  have hrest : ∀ {q : Page} {due : List Char}, b.reader.Fits q due := fun _ => b.rests _
  have hline : ∀ due, b.reader.step due '\n' = some due := b.step_newline
  cases a with
  | text t => cases hfollow; exact h.trans (Reader.follows_write hrest (ha.read _))
  | newline => cases hfollow; exact h.trans (Reader.follows_newline hrest (hline _))
  | freshLine =>
    cases hfollow; exact h.trans (Reader.follows_freshLine hrest (hline _) fun _ => rfl)
  | gap =>
    cases hfollow
    rw [Act.perform]
    split
    · exact h
    · refine h.trans (Reader.follows_write hrest ?_)
      exact b.reader.read_of_idle fun c hc => b.rests _ c (.inl (by simpa using hc))
  | indent => cases hfollow; exact h.of_level _
  | dedent => cases hfollow; exact h.of_level _
  | opened s =>
    cases hfollow
    have hopen : b.reader.read (around.flatMap b.owed) s.opening.toList =
        some ((s :: around).flatMap b.owed) := by
      rw [List.flatMap_cons]
      exact b.read_later ha.1 (around.flatMap b.owed)
    exact h.trans (Reader.follows_enter hrest (hline _) hopen (hline _))
  | closed s =>
    obtain rfl := Act.follow_closed hfollow
    have hclose : b.reader.read ((s :: around').flatMap b.owed) s.closing.toList =
        some (around'.flatMap b.owed) := by
      rw [List.flatMap_cons]
      exact b.read_later ha.2 (around'.flatMap b.owed)
    exact h.trans (Reader.follows_leave hrest (hline _) (fun _ => rfl) hclose hclose)

theorem tracks_refl (p : Page) : b.Tracks p p [] := Reader.Follows.refl fun _ => b.rests []

theorem tracks_replay {b : Brackets} {p : Page} : ∀ {acts : List Act} {q : Page}
    {around around' : List Scope}, (∀ a ∈ acts, b.Keeps a) → settle around acts = some around' →
      b.Tracks p q around → b.Tracks p (replay acts q) around'
  | [], _, _, _, _, hs, h => by cases hs; exact h
  | a :: acts, _, _, _, ha, hs, h => by
    rw [settle, List.foldlM_cons] at hs
    obtain ⟨next, hnext, hs⟩ := Option.bind_eq_some_iff.1 hs
    have hstep := h.perform (ha a (List.mem_cons_self ..)) hnext
    have hlater : ∀ a ∈ acts, b.Keeps a := fun a ha' => ha a (List.mem_cons_of_mem _ ha')
    change b.Tracks p (replay acts _) _
    exact tracks_replay hlater hs hstep

/-! ### Balanced texts -/

variable {b}

instance (t : String) : Decidable (b.Spares t) :=
  decidable_of_iff (t.toList.all fun c => b.contains c = false) (by simp [Spares])

instance (t : String) : Decidable (b.IsBalanced t) := inferInstanceAs (Decidable (_ = _))

theorem Spares.isBalanced {t : String} (h : b.Spares t) : b.IsBalanced t := b.read_of_spares h []

theorem IsBalanced.append {s t : String} (hs : b.IsBalanced s) (ht : b.IsBalanced t) :
    b.IsBalanced (s ++ t) := by
  rw [IsBalanced, String.toList_append, b.reader.read_append_of hs]; exact ht

theorem isBalanced_empty : b.IsBalanced "" := rfl

/-- Something between brackets that belong together. -/
theorem IsBalanced.between {opening t closing : String} {due : List Char} (ht : b.IsBalanced t)
    (ho : b.reader.read [] opening.toList = some due)
    (hc : b.reader.read due closing.toList = some []) : b.IsBalanced (opening ++ t ++ closing) := by
  rw [IsBalanced, String.toList_append, String.toList_append, List.append_assoc,
    b.reader.read_append_of ho, b.reader.read_append_of (ht.read due)]
  exact hc

theorem matches_of {setting : Setting} {opening closing : String} {due : List Char}
    (ho : b.reader.read [] opening.toList = some due)
    (hc : b.reader.read due closing.toList = some []) : b.Matches ⟨setting, opening, closing⟩ := by
  have howed : b.owed ⟨setting, opening, closing⟩ = due := by rw [owed, ho]; rfl
  rw [Matches, howed]
  exact ⟨ho, hc⟩

end Brackets

end TypeGen.Code
