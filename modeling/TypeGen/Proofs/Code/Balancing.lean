import TypeGen.Proofs.Code.Closing

/-!
Balanced steps. A step is balanced when the texts in it are clear and the steps in it are balanced.
The name of a namespace is repeated in a comment and the path of an include stands in quotes, so these
have to be fragments.
-/

namespace TypeGen.Code

open TypeGen.Spec TypeGen.Text

/-- Steps whose text leads from code to code, with the brackets as they were. -/
def BalancedSteps (steps : List Step) : Prop := Balanced (strokesOf steps)

variable {steps body otherwise : List Step}

/-! ### Steps in order -/

theorem balancedSteps_nil : BalancedSteps [] := balanced_nil

theorem balancedSteps_cons {s : Step} (hs : Balanced s.strokes) (hrest : BalancedSteps steps) :
    BalancedSteps (s :: steps) :=
  hs.append hrest

theorem balancedSteps_one {s : Step} (hs : Balanced s.strokes) : BalancedSteps [s] :=
  balancedSteps_cons hs balancedSteps_nil

theorem BalancedSteps.append {xs ys : List Step} (hx : BalancedSteps xs) (hy : BalancedSteps ys) :
    BalancedSteps (xs ++ ys) := by
  rw [BalancedSteps, strokesOf_append]
  exact Balanced.append hx hy

theorem balancedSteps_of_forall (h : ∀ s ∈ steps, Balanced s.strokes) : BalancedSteps steps := by
  induction steps with
  | nil => exact balancedSteps_nil
  | cons s rest ih =>
    exact balancedSteps_cons (h s (List.mem_cons_self ..))
      (ih fun s hs => h s (List.mem_cons_of_mem _ hs))

theorem balancedSteps_map {α : Type} {as : List α} {f : α → Step}
    (h : ∀ a ∈ as, Balanced (f a).strokes) :
    BalancedSteps (as.map f) := balancedSteps_of_forall (List.forall_mem_map.2 h)

theorem balancedSteps_flatMap {α : Type} {as : List α} {f : α → List Step}
    (h : ∀ a ∈ as, BalancedSteps (f a)) :
    BalancedSteps (as.flatMap f) := by
  induction as with
  | nil => exact balancedSteps_nil
  | cons a as ih =>
    rw [List.flatMap_cons]
    exact (h a (List.mem_cons_self ..)).append (ih fun b hb => h b (List.mem_cons_of_mem _ hb))

/-! ### Steps without steps in them -/

theorem balanced_blank : Balanced Step.blank.strokes :=
  balanced_nil.endsInCode.freshLine.endsInCode.newline

theorem balancedSteps_line {t : String} (h : Clear t) : BalancedSteps [.line t] :=
  balancedSteps_one (balanced_line h)

theorem balanced_template {params : List String} (h : ∀ t ∈ params, Clear t) (force : Bool) :
    Balanced (Step.template params force).strokes :=
  balanced_lines (combines_clear.templateLines h)

theorem balanced_includes {list : IncludeList} (h : ∀ i ∈ list.toList, IsFragment i.path) :
    Balanced (Step.includes list).strokes := by
  refine balanced_lines (List.forall_mem_map.2 fun i hi => ?_)
  rw [Include.directive]
  split
  · exact clear_phrase (.fixed _) [.code (h i hi).clear, .fixed _] (by rfl)
  · exact clear_phrase (.fixed _) [.inner (h i hi).unquoted, .fixed _] (by rfl)

theorem balanced_semicolon (h : EndsInCode (strokesOf body)) :
    Balanced (Step.semicolon body).strokes :=
  balanced_scope [] ⟨rfl, by decide, by decide⟩ h

theorem balanced_declare {f : Function} (h : ∀ t ∈ f.texts, Clear t) :
    Balanced (Step.declare f).strokes := by
  refine (balanced_lines (combines_clear.templateLines fun t ht => h t ?_)).append
    (balanced_scope [] ⟨rfl, by decide, by decide⟩
      (endsInCode_text (combines_clear.declaration h)))
  simp [Function.texts, ht]

/-! ### Steps with steps in them -/

theorem balanced_spaced (h : BalancedSteps body) : Balanced (Step.spaced body).strokes :=
  balanced_scope [] ⟨rfl, by decide, by decide⟩ h.endsInCode

theorem balanced_inSpace {name : Option String} (hname : ∀ n ∈ name, IsFragment n)
    (h : BalancedSteps body) :
    Balanced (Step.inSpace name body).strokes := by
  cases name with
  | none => exact h
  | some name =>
    have hn := hname name rfl
    refine balanced_scope ['\x7d'] ⟨?_, ?_, ?_⟩ h.endsInCode
    · exact read_phrase (.fixed _) [.code hn.clear, .fixed _] (by rfl) (by simp)
    · exact read_phrase (.fixed _) [.inner hn.unquoted, .fixed _] (by rfl) (by simp)
    · simp [StartsNoComment]

theorem balanced_struct {name : String} {params : List String} {specialization : Bool}
    (hname : Clear name) (hparams : ∀ t ∈ params, Clear t) (h : BalancedSteps body) :
    Balanced (Step.struct name params specialization body).strokes :=
  (balanced_lines (combines_clear.templateLines hparams)).append
    (balanced_block (clear_phrase (.fixed _) [.code hname] (by rfl)) (.inr rfl) h.endsInCode)

theorem balanced_switch {subject : String} (hsubject : Clear subject) (h : BalancedSteps body) :
    Balanced (Step.switch subject body).strokes :=
  balanced_block (clear_phrase (.fixed _) [.code hsubject, .fixed _] (by rfl))
    (.inl rfl) h.endsInCode

theorem balanced_case_strokes {label : String} {leaves : Bool} (hlabel : Clear label)
    (h : BalancedSteps body) :
    Balanced (strokesOfCase label leaves (strokesOf body)) := by
  refine balanced_block hlabel (.inl rfl) (balanced_ensure h ?_).endsInCode
  split
  · exact balanced_line (clear_fixed (by rfl))
  · exact balanced_nil

theorem balanced_case {label : String} {leaves : Bool} (hlabel : Clear label)
    (h : BalancedSteps body) :
    Balanced (Step.case label leaves body).strokes :=
  balanced_case_strokes (clear_phrase (.fixed _) [.code hlabel, .fixed _] (by rfl)) h

theorem balanced_default {leaves : Bool} (h : BalancedSteps body) :
    Balanced (Step.default leaves body).strokes :=
  balanced_case_strokes (clear_fixed (by rfl)) h

theorem balanced_define {f : Function} (hf : ∀ t ∈ f.texts, Clear t) (h : BalancedSteps body) :
    Balanced (Step.define f body).strokes := by
  refine (balanced_lines (combines_clear.templateLines fun t ht => hf t ?_)).append
    (balanced_block (combines_clear.defined hf) (.inl rfl) h.endsInCode)
  simp [Function.texts, ht]

theorem balanced_branches :
    ∀ {arms : List (String × List Stroke)} {keyword : String}, Clear keyword →
    (∀ arm ∈ arms, Clear arm.1 ∧ Balanced arm.2) → Balanced (strokesOfBranches keyword arms)
  | [], _, _, _ => balanced_nil
  | (condition, body) :: rest, keyword, hkeyword, h => by
    obtain ⟨hcondition, hbody⟩ := h _ (List.mem_cons_self ..)
    have hhead : Clear (keyword ++ " (" ++ condition ++ ")") :=
      clear_phrase (.code hkeyword) [.fixed _, .code hcondition, .fixed _] (by rfl)
    have helse : Clear " else if" := clear_fixed (by rfl)
    exact (balanced_braces (endsInCode_text hhead) (endsIn_attempt hbody.endsInCode)).append
      (balanced_branches helse fun arm harm => h arm (List.mem_cons_of_mem _ harm))

theorem balanced_ifChain {arms : List (String × List Step)}
    (harms : ∀ arm ∈ arms, Clear arm.1 ∧ BalancedSteps arm.2) (ho : BalancedSteps otherwise) :
    Balanced (Step.ifChain arms otherwise).strokes := by
  have hbranches : Balanced (strokesOfBranches "if" (strokesOfArms arms)) := by
    rw [strokesOfArms_eq]
    exact balanced_branches (clear_fixed (by rfl)) (List.forall_mem_map.2 harms)
  have helse : EndsInCode (if arms.isEmpty then [] else [.text " else"]) := by
    split
    · exact balanced_nil.endsInCode
    · exact endsInCode_text (clear_fixed (by rfl))
  exact (balanced_braces (EndsIn.after helse hbranches)
    (endsIn_attempt ho.endsInCode)).endsInCode.newline

/-- Items that end in code, with a text between each two that ends them. -/
theorem endsInCode_join {separator : String} (hne : separator.toList ≠ [])
    (hstarts : StartsNoComment separator.toList)
    (hread : lexer.read ⟨.code, []⟩ separator.toList = some ⟨.code, []⟩) :
    ∀ {items : List (List Stroke)}, (∀ item ∈ items, EndsInCode item) →
      EndsInCode (strokesOfJoin separator items)
  | [], _ => balanced_nil.endsInCode
  | [item], h => endsIn_attempt (h item (by simp))
  | item :: next :: rest, h => by
    have hfirst := EndsInCode.text (endsIn_attempt (h item (by simp))) hne hstarts hread
    have hlater : EndsInCode (strokesOfJoin separator (next :: rest)) :=
      endsInCode_join hne hstarts hread fun item hi => h item (List.mem_cons_of_mem _ hi)
    exact EndsIn.after hlater hfirst

/-- Balanced items, with empty lines between them. -/
theorem balanced_join : ∀ {items : List (List Step)}, (∀ item ∈ items, BalancedSteps item) →
    Balanced (Step.join "\n" items).strokes
  | [], _ => balanced_nil
  | [item], h => endsIn_attempt (h item (by simp))
  | item :: next :: rest, h => by
    have hfirst : Balanced [.attempt (strokesOf item), .text "\n"] :=
      EndsInCode.text (endsIn_attempt (h item (by simp)).endsInCode) (by decide) (by decide)
        (by decide)
    have hlater : Balanced (Step.join "\n" (next :: rest)).strokes :=
      balanced_join fun item hi => h item (List.mem_cons_of_mem _ hi)
    exact hfirst.append hlater

end TypeGen.Code
