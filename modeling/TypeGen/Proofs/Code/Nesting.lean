import Mathlib.Tactic.Tauto
import TypeGen.Code.Step
import TypeGen.Proofs.Code.Trace

/-!
Steps within steps. The acts of a step are those of the step alone, with nothing in it, and those of
the steps that are nested in it, at any depth.
-/

namespace TypeGen.Code

/-! ### Steps within steps -/

mutual

/-- A step and all that are nested in it have a property. -/
def Step.All (P : Step → Prop) : Step → Prop
  | .semicolon body => P (.semicolon body) ∧ AllOf P body
  | .spaced body => P (.spaced body) ∧ AllOf P body
  | .braces body => P (.braces body) ∧ AllOf P body
  | .parens body => P (.parens body) ∧ AllOf P body
  | .angles body => P (.angles body) ∧ AllOf P body
  | .block header closing body => P (.block header closing body) ∧ AllOf P body
  | .inSpace name body => P (.inSpace name body) ∧ AllOf P body
  | .struct name params specialization body =>
    P (.struct name params specialization body) ∧ AllOf P body
  | .switch subject body => P (.switch subject body) ∧ AllOf P body
  | .case label leaves body => P (.case label leaves body) ∧ AllOf P body
  | .default leaves body => P (.default leaves body) ∧ AllOf P body
  | .ifElse condition body otherwise =>
    P (.ifElse condition body otherwise) ∧ AllOf P body ∧ AllOf P otherwise
  | .ifChain arms otherwise => P (.ifChain arms otherwise) ∧ AllOfArms P arms ∧ AllOf P otherwise
  | .join separator items => P (.join separator items) ∧ AllOfItems P items
  | .define f body => P (.define f body) ∧ AllOf P body
  | s => P s

def AllOf (P : Step → Prop) : List Step → Prop
  | [] => True
  | s :: rest => s.All P ∧ AllOf P rest

def AllOfItems (P : Step → Prop) : List (List Step) → Prop
  | [] => True
  | item :: rest => AllOf P item ∧ AllOfItems P rest

def AllOfArms (P : Step → Prop) : List (String × List Step) → Prop
  | [] => True
  | (_, body) :: rest => AllOf P body ∧ AllOfArms P rest

end

/-- The step alone, with nothing in it. -/
def Step.bare : Step → Step
  | .semicolon _ => .semicolon []
  | .spaced _ => .spaced []
  | .braces _ => .braces []
  | .parens _ => .parens []
  | .angles _ => .angles []
  | .block header closing _ => .block header closing []
  | .inSpace name _ => .inSpace name []
  | .struct name params specialization _ => .struct name params specialization []
  | .switch subject _ => .switch subject []
  | .case label leaves _ => .case label leaves []
  | .default leaves _ => .default leaves []
  | .ifElse condition _ _ => .ifElse condition [] []
  | .ifChain arms _ => .ifChain (arms.map fun arm => (arm.1, [])) []
  | .join separator items => .join separator (items.map fun _ => [])
  | .define f _ => .define f []
  | s => s

theorem strokesOf_append (xs ys : List Step) : strokesOf (xs ++ ys) = strokesOf xs ++ strokesOf ys := by
  induction xs with
  | nil => rfl
  | cons x xs ih => rw [List.cons_append, strokesOf, ih, strokesOf, List.append_assoc]

theorem strokesOf_eq_flatMap (steps : List Step) : strokesOf steps = steps.flatMap Step.strokes := by
  induction steps with
  | nil => rfl
  | cons s rest ih => rw [strokesOf, ih, List.flatMap_cons]

theorem strokesOf_flatMap {α : Type} (f : α → List Step) (as : List α) :
    strokesOf (as.flatMap f) = as.flatMap fun a => strokesOf (f a) := by
  induction as with
  | nil => rfl
  | cons a as ih => rw [List.flatMap_cons, strokesOf_append, ih, List.flatMap_cons]

theorem strokesOf_singleton (s : Step) : strokesOf [s] = s.strokes := List.append_nil _

theorem allOf_append {P : Step → Prop} {xs ys : List Step} :
    AllOf P (xs ++ ys) ↔ AllOf P xs ∧ AllOf P ys := by
  induction xs with
  | nil => simp [AllOf]
  | cons x xs ih => rw [List.cons_append, AllOf, AllOf, ih, and_assoc]

theorem allOf_iff {P : Step → Prop} {xs : List Step} : AllOf P xs ↔ ∀ x ∈ xs, x.All P := by
  induction xs with
  | nil => simp [AllOf]
  | cons x xs ih => rw [AllOf, ih, List.forall_mem_cons]

theorem allOf_flatMap {α : Type} {P : Step → Prop} {as : List α} {f : α → List Step} :
    AllOf P (as.flatMap f) ↔ ∀ a ∈ as, AllOf P (f a) := by
  induction as with
  | nil => simp [AllOf]
  | cons a as ih => rw [List.flatMap_cons, allOf_append, ih, List.forall_mem_cons]

theorem allOfItems_iff {P : Step → Prop} {items : List (List Step)} :
    AllOfItems P items ↔ ∀ item ∈ items, AllOf P item := by
  induction items with
  | nil => simp [AllOfItems]
  | cons item rest ih => rw [AllOfItems, ih, List.forall_mem_cons]

theorem allOfArms_iff {P : Step → Prop} {arms : List (String × List Step)} :
    AllOfArms P arms ↔ ∀ arm ∈ arms, AllOf P arm.2 := by
  induction arms with
  | nil => simp [AllOfArms]
  | cons arm rest ih => rw [AllOfArms, ih, List.forall_mem_cons]

/-! ### Acts of steps -/

section Every

variable {Q : Act → Prop} {P : Step → Prop}

theorem everyOf_lines {ss : List String} : EveryOf Q (strokesOfLines ss) ↔
    ∀ s ∈ ss, Q (.text s) ∧ Q .newline := by
  induction ss with
  | nil => simp [strokesOfLines, EveryOf]
  | cons s ss ih =>
    rw [strokesOfLines, List.flatMap_cons, ← strokesOfLines, everyOf_append, ih]
    simp [strokesOfLine, EveryOf, Stroke.Every, and_assoc]

theorem everyOf_scope {setting : Setting} {opening closing : String} {body : List Stroke} :
    EveryOf Q [.scope setting opening closing body] ↔
      EveryOf Q [.scope setting opening closing []] ∧ EveryOf Q body := by
  simp [EveryOf, Stroke.Every, and_assoc]

theorem everyOf_braces {body : List Stroke} :
    EveryOf Q (strokesOfBraces body) ↔ EveryOf Q (strokesOfBraces []) ∧ EveryOf Q body := by
  simp [strokesOfBraces, EveryOf, Stroke.Every, and_assoc]

theorem everyOf_case {label : String} {leaves : Bool} {body : List Stroke} :
    EveryOf Q (strokesOfCase label leaves body) ↔
      EveryOf Q (strokesOfCase label leaves []) ∧ EveryOf Q body := by
  simp only [strokesOfCase, strokesOfBlock, EveryOf, Stroke.Every]
  tauto

theorem everyOf_join {separator : String} : ∀ items : List (List Stroke),
    EveryOf Q (strokesOfJoin separator items) ↔
      EveryOf Q (strokesOfJoin separator (items.map fun _ => [])) ∧ ∀ item ∈ items, EveryOf Q item
  | [] => by simp [strokesOfJoin, EveryOf]
  | [last] => by simp [strokesOfJoin, EveryOf, Stroke.Every]
  | item :: next :: rest => by
    have ih : EveryOf Q (strokesOfJoin separator (next :: rest)) ↔ _ := everyOf_join (next :: rest)
    simp only [strokesOfJoin, List.map_cons, EveryOf, Stroke.Every, List.forall_mem_cons] at ih ⊢
    rw [ih]
    tauto

theorem everyOf_branches {arms : List (String × List Stroke)} : ∀ {keyword : String},
    EveryOf Q (strokesOfBranches keyword arms) ↔
      EveryOf Q (strokesOfBranches keyword (arms.map fun arm => (arm.1, []))) ∧
        ∀ arm ∈ arms, EveryOf Q arm.2 := by
  induction arms with
  | nil => simp [strokesOfBranches, EveryOf]
  | cons arm rest ih =>
    intro keyword
    simp only [strokesOfBranches, List.map_cons, everyOf_append, EveryOf, Stroke.Every,
      strokesOfBraces, List.forall_mem_cons, ih]
    tauto

theorem strokesOfItems_eq : ∀ items : List (List Step), strokesOfItems items = items.map strokesOf
  | [] => rfl
  | item :: rest => congrArg (strokesOf item :: ·) (strokesOfItems_eq rest)

theorem strokesOfArms_eq : ∀ arms : List (String × List Step),
    strokesOfArms arms = arms.map fun arm => (arm.1, strokesOf arm.2)
  | [] => rfl
  | (condition, body) :: rest =>
    congrArg ((condition, strokesOf body) :: ·) (strokesOfArms_eq rest)

theorem everyOf_lines_scope {ss : List String} {setting : Setting} {opening closing : String}
    {body : List Stroke} : EveryOf Q (strokesOfLines ss ++ [.scope setting opening closing body]) ↔
      EveryOf Q (strokesOfLines ss ++ [.scope setting opening closing []]) ∧ EveryOf Q body := by
  rw [everyOf_append, everyOf_append, everyOf_scope, and_assoc]

theorem everyOf_ifElse {condition : String} {body otherwise : List Step}
    (h : EveryOf Q (Step.ifElse condition body otherwise).bare.strokes)
    (hbody : EveryOf Q (strokesOf body)) (hotherwise : EveryOf Q (strokesOf otherwise)) :
    EveryOf Q (Step.ifElse condition body otherwise).strokes := by
  simp only [Step.bare, Step.strokes, strokesOf, strokesOfBranches, strokesOfBraces, everyOf_append,
    EveryOf, Stroke.Every] at h ⊢
  tauto

theorem everyOf_ifChain {arms : List (String × List Step)} {otherwise : List Step}
    (h : EveryOf Q (Step.ifChain arms otherwise).bare.strokes)
    (harms : ∀ arm ∈ arms, EveryOf Q (strokesOf arm.2)) (hotherwise : EveryOf Q (strokesOf otherwise)) :
    EveryOf Q (Step.ifChain arms otherwise).strokes := by
  have hbodies : ∀ arm ∈ strokesOfArms arms, EveryOf Q arm.2 := by
    rw [strokesOfArms_eq]
    exact List.forall_mem_map.2 harms
  have hbare : (strokesOfArms arms).map (fun arm => (arm.1, ([] : List Stroke))) =
      strokesOfArms (arms.map fun arm => (arm.1, [])) := by
    simp [strokesOfArms_eq, Function.comp_def, strokesOf]
  simp only [Step.bare, Step.strokes, strokesOf, strokesOfBraces, everyOf_append, EveryOf,
    Stroke.Every, List.isEmpty_map, ← hbare] at h ⊢
  rw [everyOf_branches]
  tauto

theorem everyOf_items {separator : String} {items : List (List Step)}
    (h : EveryOf Q (Step.join separator items).bare.strokes)
    (hitems : ∀ item ∈ items, EveryOf Q (strokesOf item)) :
    EveryOf Q (Step.join separator items).strokes := by
  have hbodies : ∀ item ∈ strokesOfItems items, EveryOf Q item := by
    rw [strokesOfItems_eq]
    exact List.forall_mem_map.2 hitems
  have hbare : (strokesOfItems items).map (fun _ => ([] : List Stroke)) =
      strokesOfItems (items.map fun _ => []) := by
    simp [strokesOfItems_eq, Function.comp_def, strokesOf]
  exact (everyOf_join _).2 ⟨hbare ▸ h, hbodies⟩

mutual

/-- What a property of steps says of the acts of each step alone holds of all acts. -/
theorem Step.All.every (hP : ∀ s, P s → EveryOf Q s.bare.strokes) : ∀ {s : Step}, s.All P →
    EveryOf Q s.strokes
  | .text _, h => hP _ h
  | .line _, h => hP _ h
  | .newline, h => hP _ h
  | .blank, h => hP _ h
  | .indent, h => hP _ h
  | .dedent, h => hP _ h
  | .doc _, h => hP _ h
  | .template .., h => hP _ h
  | .declare _, h => hP _ h
  | .includes _, h => hP _ h
  | .fail _, h => hP _ h
  | .unwind _, h => hP _ h
  | .semicolon _, ⟨h, hb⟩ => everyOf_scope.2 ⟨hP _ h, AllOf.every hP hb⟩
  | .spaced _, ⟨h, hb⟩ => everyOf_scope.2 ⟨hP _ h, AllOf.every hP hb⟩
  | .braces _, ⟨h, hb⟩ => everyOf_braces.2 ⟨hP _ h, AllOf.every hP hb⟩
  | .parens _, ⟨h, hb⟩ => everyOf_scope.2 ⟨hP _ h, AllOf.every hP hb⟩
  | .angles _, ⟨h, hb⟩ => everyOf_scope.2 ⟨hP _ h, AllOf.every hP hb⟩
  | .block .., ⟨h, hb⟩ => everyOf_scope.2 ⟨hP _ h, AllOf.every hP hb⟩
  | .inSpace (some _) _, ⟨h, hb⟩ => everyOf_scope.2 ⟨hP _ h, AllOf.every hP hb⟩
  | .inSpace none _, ⟨_, hb⟩ => AllOf.every hP hb
  | .switch .., ⟨h, hb⟩ => everyOf_scope.2 ⟨hP _ h, AllOf.every hP hb⟩
  | .case .., ⟨h, hb⟩ => everyOf_case.2 ⟨hP _ h, AllOf.every hP hb⟩
  | .default .., ⟨h, hb⟩ => everyOf_case.2 ⟨hP _ h, AllOf.every hP hb⟩
  | .struct .., ⟨h, hb⟩ => everyOf_lines_scope.2 ⟨hP _ h, AllOf.every hP hb⟩
  | .define .., ⟨h, hb⟩ => everyOf_lines_scope.2 ⟨hP _ h, AllOf.every hP hb⟩
  | .ifElse .., ⟨h, hb, ho⟩ => everyOf_ifElse (hP _ h) (AllOf.every hP hb) (AllOf.every hP ho)
  | .ifChain .., ⟨h, ha, ho⟩ => everyOf_ifChain (hP _ h) (AllOfArms.every hP ha) (AllOf.every hP ho)
  | .join .., ⟨h, hi⟩ => everyOf_items (hP _ h) (AllOfItems.every hP hi)

theorem AllOf.every (hP : ∀ s, P s → EveryOf Q s.bare.strokes) : ∀ {ss : List Step}, AllOf P ss →
    EveryOf Q (strokesOf ss)
  | [], _ => trivial
  | _ :: _, ⟨hs, hrest⟩ => everyOf_append.2 ⟨Step.All.every hP hs, AllOf.every hP hrest⟩

theorem AllOfItems.every (hP : ∀ s, P s → EveryOf Q s.bare.strokes) : ∀ {items : List (List Step)},
    AllOfItems P items → ∀ item ∈ items, EveryOf Q (strokesOf item)
  | [], _ => by simp
  | _ :: _, ⟨hitem, hrest⟩ => List.forall_mem_cons.2 ⟨AllOf.every hP hitem, AllOfItems.every hP hrest⟩

theorem AllOfArms.every (hP : ∀ s, P s → EveryOf Q s.bare.strokes) :
    ∀ {arms : List (String × List Step)}, AllOfArms P arms →
      ∀ arm ∈ arms, EveryOf Q (strokesOf arm.2)
  | [], _ => by simp
  | _ :: _, ⟨hbody, hrest⟩ => List.forall_mem_cons.2 ⟨AllOf.every hP hbody, AllOfArms.every hP hrest⟩

end

/-! ### Steps alone -/

theorem everyOf_join_bare {separator : String} (h : Q (.text separator)) :
    ∀ items : List (List Step), EveryOf Q (Step.join separator items).bare.strokes
  | [] => trivial
  | [_] => ⟨trivial, trivial⟩
  | _ :: next :: rest => ⟨trivial, h, everyOf_join_bare h (next :: rest)⟩

theorem everyOf_branches_bare (hbraces : EveryOf Q (strokesOfBraces [])) :
    ∀ (arms : List (String × List Step)) (keyword : String),
      (∀ arm ∈ arms, ∀ k ∈ [keyword, " else if"], Q (.text (k ++ " (" ++ arm.1 ++ ")"))) →
        EveryOf Q (strokesOfBranches keyword (strokesOfArms (arms.map fun arm => (arm.1, []))))
  | [], _, _ => trivial
  | arm :: rest, keyword, h => by
    refine everyOf_append.2 ⟨⟨h arm (by simp) keyword (by simp), ?_⟩,
      everyOf_branches_bare hbraces rest _ fun arm' harm' k hk => ?_⟩
    · exact everyOf_braces.2 ⟨hbraces, trivial, trivial⟩
    · have hk' : k = " else if" := by simpa using hk
      exact h arm' (by simp [harm']) k (by simp [hk'])

theorem everyOf_ifChain_bare (hbraces : EveryOf Q (strokesOfBraces [])) (helse : Q (.text " else"))
    (hline : Q .newline) {arms : List (String × List Step)} {otherwise : List Step}
    (h : ∀ arm ∈ arms, ∀ k ∈ ["if", " else if"], Q (.text (k ++ " (" ++ arm.1 ++ ")"))) :
    EveryOf Q (Step.ifChain arms otherwise).bare.strokes := by
  refine everyOf_append.2 ⟨everyOf_append.2 ⟨everyOf_append.2
    ⟨everyOf_branches_bare hbraces arms "if" h, ?_⟩, everyOf_braces.2 ⟨hbraces, trivial, trivial⟩⟩,
    hline, trivial⟩
  split
  · trivial
  · exact ⟨helse, trivial⟩

/-- Two branches are a chain with one condition. -/
theorem strokes_ifElse (condition : String) (body otherwise : List Step) :
    (Step.ifElse condition body otherwise).bare.strokes =
      (Step.ifChain [(condition, body)] otherwise).bare.strokes := by
  simp [Step.bare, Step.strokes, strokesOfArms, strokesOf]

theorem everyOf_case_bare {label : String} {leaves : Bool}
    (hscope : EveryOf Q (strokesOfBlock label "\x7d" [])) (hbreak : Q (.text "break;"))
    (hline : Q .newline) : EveryOf Q (strokesOfCase label leaves []) := by
  refine everyOf_scope.2 ⟨hscope, ⟨trivial, ?_⟩, trivial⟩
  split
  · exact ⟨hbreak, hline, trivial⟩
  · trivial

/-- Steps alone come to acts that write, apart from the two that stand for themselves. -/
theorem everyOf_bare {s : Step} (hwrites : ∀ a, a ≠ .indent → a ≠ .dedent → Q a)
    (hindent : s = .indent → Q .indent) (hdedent : s = .dedent → Q .dedent) : EveryOf Q s.bare.strokes := by
  have htext : ∀ t, Q (.text t) := fun _ => hwrites _ nofun nofun
  have hline : Q .newline := hwrites _ nofun nofun
  have hfresh : Q .freshLine := hwrites _ nofun nofun
  have hscope : ∀ setting opening closing, EveryOf Q [.scope setting opening closing []] :=
    fun _ _ _ => ⟨⟨hwrites _ nofun nofun, hwrites _ nofun nofun, trivial⟩, trivial⟩
  have hbraces : EveryOf Q (strokesOfBraces []) := ⟨hwrites _ nofun nofun, hscope _ _ _⟩
  have hlines : ∀ ss, EveryOf Q (strokesOfLines ss) := fun ss =>
    everyOf_lines.2 fun _ _ => ⟨htext _, hline⟩
  have hcase : ∀ label leaves, EveryOf Q (strokesOfCase label leaves []) := fun _ _ =>
    everyOf_case_bare (hscope _ _ _) (htext _) hline
  cases s with
  | text => exact ⟨htext _, trivial⟩
  | newline => exact ⟨hline, trivial⟩
  | line => exact ⟨htext _, hline, trivial⟩
  | blank => exact ⟨hfresh, hline, trivial⟩
  | indent => exact ⟨hindent rfl, trivial⟩
  | dedent => exact ⟨hdedent rfl, trivial⟩
  | doc => exact ⟨hfresh, hlines _⟩
  | semicolon | spaced | parens | angles | block | switch => exact hscope _ _ _
  | braces => exact hbraces
  | inSpace name =>
    cases name with
    | some => exact hscope _ _ _
    | none => trivial
  | template | includes => exact hlines _
  | struct | define => exact everyOf_append.2 ⟨hlines _, hscope _ _ _⟩
  | case | default => exact hcase _ _
  | ifElse =>
    rw [strokes_ifElse]
    exact everyOf_ifChain_bare hbraces (htext _) hline fun _ _ _ _ => htext _
  | ifChain => exact everyOf_ifChain_bare hbraces (htext _) hline fun _ _ _ _ => htext _
  | join => exact everyOf_join_bare (htext _) _
  | declare => exact everyOf_append.2 ⟨hlines _, everyOf_scope.2 ⟨hscope _ _ _, htext _, trivial⟩⟩
  | fail | unwind => exact ⟨trivial, trivial⟩

end Every

end TypeGen.Code
