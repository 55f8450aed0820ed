import Mathlib.Data.Fintype.Card
import TypeGen.Render.Variant
import TypeGen.Spec.Check
import TypeGen.Text.Identifier

/-!
Type variables. Templates among the members of a variant bring variables of their own into the scope
of its parameters, and the types of the alternatives are written where both are visible. A variable
that is no parameter takes no parameter away; an alternative that is called like a variable, and has
no scope before it, is read as that variable.
-/

namespace TypeGen.Render

open TypeGen.Code TypeGen.Spec TypeGen.Text

/-! ### Free names -/

/-- A name that is not taken: the stem where it is free, else the stem with the least number that makes
it so. -/
def IsFirstFree (taken : List String) (stem v : String) : Prop :=
  v ∉ taken ∧ (v = stem ∨ stem ∈ taken ∧ ∃ n : Nat, v = stem ++ toString n ∧
    ∀ k < n, stem ++ toString k ∈ taken)

theorem toString_injective : Function.Injective (toString : Nat → String) := fun m n h => by
  rw [Nat.toString_eq_ofList_toDigits, Nat.toString_eq_ofList_toDigits] at h
  have hdigits : Nat.toDigits 10 m = Nat.toDigits 10 n := String.ofList_injective h
  simpa using congrArg (Nat.ofDigitChars 10 · 0) hdigits

/-- Among one number more than there are names, one makes a new name. -/
theorem exists_numbered_notMem (taken : List String) (stem : String) :
    ∃ i ∈ List.range (taken.length + 1), stem ++ toString i ∉ taken := by
  by_contra hall
  push Not at hall
  have hsub : (List.range (taken.length + 1)).map (stem ++ toString ·) ⊆ taken := fun v hv => by
    obtain ⟨i, hi, rfl⟩ := List.mem_map.1 hv
    exact hall i hi
  have hnodup : ((List.range (taken.length + 1)).map (stem ++ toString ·)).Nodup :=
    List.nodup_range.map fun _ _ h => toString_injective ((String.append_right_inj _).1 h)
  have hlength := (hnodup.subperm hsub).length_le
  rw [List.length_map, List.length_range] at hlength
  omega

theorem isFirstFree_freshVariable (params : List String) (stem : String) :
    IsFirstFree params stem (freshVariable params stem) := by
  unfold freshVariable
  split
  next hstem =>
    split
    next n hn =>
      obtain ⟨hfree, -, hless⟩ := List.find?_range_eq_some.1 hn
      exact ⟨by simpa using hfree, .inr ⟨by simpa using hstem, n, rfl, by simpa using hless⟩⟩
    next hnone =>
      obtain ⟨i, hi, hfree⟩ := exists_numbered_notMem params stem
      exact absurd (by simpa using hfree) (List.find?_eq_none.1 hnone i hi)
  next hstem => exact ⟨by simpa using hstem, .inl rfl⟩

/-- Whatever is put behind a stem, its first character stays. -/
theorem IsFirstFree.head {taken : List String} {stem v : String} (h : IsFirstFree taken stem v)
    {c : Char} (hc : stem.toList.head? = some c) : v.toList.head? = some c := by
  obtain ⟨-, rfl | ⟨-, n, rfl, -⟩⟩ := h
  · exact hc
  · rw [String.toList_append, List.head?_append, hc]; rfl

/-! ### What names stand for -/

/-- The characters of identifiers; beyond ASCII all of them. -/
def isIdentifierChar (c : Char) : Bool := isWordChar c || 0x80 ≤ c.toNat

/-- An identifier where it stands in a piece of code. Behind `::` it is looked up in what is named
before that, and not in the scopes around the code. -/
structure Occurrence where
  name : String
  qualified : Bool
  deriving DecidableEq, Repr

/-- Whether a name behind these characters is a qualified one. A line break ends the search, since
what is before it may be a comment. -/
def endsInScope (before : List Char) : Bool :=
  [':', ':'].isPrefixOf (before.reverse.dropWhile fun c => c = ' ' || c = '\t')

/-- The identifiers in a piece of code without macros, from left to right. -/
def occurrences (code : String) : List Occurrence :=
  let runs := code.toList.splitBy fun a b => isIdentifierChar a == isIdentifierChar b
  (([] :: runs).zip runs).filterMap fun (before, run) =>
    if run.head?.any fun c => isIdentifierChar c && !c.isDigit then
      some ⟨String.ofList run, endsInScope before⟩
    else none

example : occurrences "std::vector<T0, 3u, ::T>" =
    [⟨"std", false⟩, ⟨"vector", true⟩, ⟨"T0", false⟩, ⟨"T", true⟩] := by decide

inductive Referent where
  /-- A variable of the template that the name is in. -/
  | variable
  /-- A parameter of the type. -/
  | parameter
  /-- What the name stands for outside of the type. -/
  | outer
  /-- What the name stands for in the scope before it. -/
  | member
  deriving DecidableEq, Repr

/-- What a name stands for where variables are bound inside of the type: they hide its parameters,
and what is outside of it, from names that are not qualified. -/
def referent (bound params : List String) (x : Occurrence) : Referent :=
  if x.qualified then .member
  else if x.name ∈ bound then .variable
  else if x.name ∈ params then .parameter
  else .outer

/-- A piece of code as it is understood: each identifier with what it stands for. -/
def understood (bound params : List String) (code : String) : List (String × Referent) :=
  (occurrences code).map fun x => (x.name, referent bound params x)

theorem referent_eq_parameter {bound params : List String} {name : String}
    (hnew : ∀ v ∈ bound, v ∉ params) (hname : name ∈ params) :
    referent bound params ⟨name, false⟩ = .parameter := by
  simp [referent, hname, mt (hnew name) (not_not.2 hname)]

theorem referent_of_notMem {bound : List String} (params : List String) {x : Occurrence}
    (hx : x.qualified = false → x.name ∉ bound) :
    referent bound params x = referent [] params x := by
  cases hq : x.qualified with
  | true => simp [referent, hq]
  | false => simp [referent, hq, hx hq]

/-- Code in which no bound name occurs without a scope before it is understood as it is where nothing
is bound. -/
theorem understood_of_notMem {bound : List String} (params : List String) {code : String}
    (hcode : ∀ v ∈ bound, ⟨v, false⟩ ∉ occurrences code) :
    understood bound params code = understood [] params code := by
  refine List.map_congr_left fun x hx => ?_
  obtain ⟨name, qualified⟩ := x
  rw [referent_of_notMem params]
  rintro rfl hv
  exact hcode name hv hx

/-! ### Templates among members -/

/-- A template among the members of a type: the function that it is of, if it is of one, and the
names that it binds. -/
structure MemberTemplate where
  function : Option String
  bound : List String
  deriving DecidableEq, Repr

/-- The template that a member begins with. -/
def introduced : Step → Option MemberTemplate
  | .template bound _ => some ⟨none, bound⟩
  | .declare f | .define f _ => if f.template.isEmpty then none else some ⟨some f.name, f.template⟩
  | _ => none

def memberTemplates (steps : List Step) : List MemberTemplate :=
  steps.flatMap fun
    | .struct _ _ _ body => body.filterMap introduced
    | _ => []

namespace VariantSpec

theorem introduced_constructors (s : VariantSpec) :
    (s.arms.map fun a => Step.declare (constructor s a)).filterMap introduced = [] := by
  rw [List.filterMap_map]
  exact List.filterMap_eq_nil_iff.2 fun a _ => rfl

theorem introduced_memberDecls (s : VariantSpec) :
    (registry.emitAll .memberDecls s).filterMap introduced = [] := by
  have hdecls : ∀ ops, (comparisonDecls s.toHead ops).filterMap introduced = [] := fun ops => by
    rw [comparisonDecls, List.filterMap_map]
    exact List.filterMap_eq_nil_iff.2 fun op _ => rfl
  rw [Registry.emitAll, List.filterMap_flatMap]
  refine List.flatMap_eq_nil_iff.2 fun emit hemit => ?_
  obtain ⟨e, he, hslot⟩ := List.mem_filterMap.1 hemit
  obtain ⟨f, -, hf⟩ := List.mem_filterMap.1 he
  cases f with
  | eq | ord => cases hf; cases hslot; exact hdecls _
  | hash | json | rapidcheck | fmt => cases hf; cases hslot

theorem introduced_keyDecls (s : VariantSpec) : (keyDecls s).filterMap introduced = [] := by
  rw [keyDecls]
  split
  · show (s.arms.flatMap _).filterMap introduced = []
    rw [List.filterMap_flatMap]
    exact List.flatMap_eq_nil_iff.2 fun a _ => rfl
  · rfl

theorem memberTemplates_type (s : VariantSpec) : memberTemplates (renderer.type s) =
    [⟨none, [typeVariable s]⟩,
      ⟨some "visit", [returnVariable s, visitorVariable s]⟩,
      ⟨some "visit", [returnVariable s, visitorVariable s]⟩,
      ⟨some "has", [typeVariable s]⟩,
      ⟨some "get", [typeVariable s]⟩,
      ⟨some "get", [typeVariable s]⟩] := by
  show List.filterMap introduced _ ++ [] = _
  simp only [List.filterMap_append, introduced_constructors, introduced_memberDecls,
    introduced_keyDecls, List.append_nil]
  rfl

/-- The two variables of `visit`. -/
theorem returnVariable_ne_visitorVariable (s : VariantSpec) :
    returnVariable s ≠ visitorVariable s := fun heq => by
  have hreturn := (isFirstFree_freshVariable s.params "ReturnType").head (c := 'R') rfl
  have hvisitor := (isFirstFree_freshVariable s.params "Visitor").head (c := 'V') rfl
  rw [show freshVariable s.params "ReturnType" = freshVariable s.params "Visitor" from heq,
    hvisitor] at hreturn
  cases hreturn

/-- A type that is called like the variable of its membership test. -/
def hidden : VariantSpec where
  name := "A"
  space := none
  params := []
  features := .empty
  includes := []
  sourceIncludes := []
  postIncludes := []
  forwards := []
  doc := none
  arms := [⟨"T", none, "T", "T"⟩, ⟨"int", none, "int", "int"⟩]
  explicitConstructors := true

end VariantSpec

end TypeGen.Render
