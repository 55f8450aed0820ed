import TypeGen.Proofs.Code.Brackets
import TypeGen.Code.Step

/-!
Signatures. A declaration is put together from the texts of its function in a few ways. What they keep
holds of the whole declaration when it holds of each of these texts.
-/

namespace TypeGen.Code

open TypeGen.Text

/-- What the caller says of a function. -/
def Function.texts (f : Function) : List String :=
  f.name :: f.scope.toList ++ f.returns.toList ++ f.template ++
    f.params.flatMap (fun p => [p.type, p.name]) ++ f.inits.flatMap fun i => [i.1, i.2]

theorem forall_mem_texts {K : String → Prop} {f : Function} : (∀ t ∈ f.texts, K t) ↔
    K f.name ∧ (∀ s ∈ f.scope, K s) ∧ (∀ r ∈ f.returns, K r) ∧ (∀ t ∈ f.template, K t) ∧
      (∀ p ∈ f.params, K p.type ∧ K p.name) ∧ ∀ i ∈ f.inits, K i.1 ∧ K i.2 := by
  simp only [Function.texts, List.forall_mem_append, List.forall_mem_cons, List.forall_mem_flatMap,
    Option.mem_toList, Option.mem_def, List.not_mem_nil, false_imp_iff, implies_true, and_true, and_assoc]

/-- A property of texts that is kept when declarations are put together. -/
structure Combines (K : String → Prop) : Prop where
  empty : K ""
  behind : ∀ word ∈ ["static ", "explicit ", "typename "], ∀ {t}, K t → K (word ++ t)
  const : ∀ {s}, K s → K (s ++ " const")
  between : ∀ sep ∈ [" ", ", ", "::", " : "], ∀ {s t}, K s → K t → K (s ++ sep ++ t)
  /-- No space follows a reference or a pointer. -/
  attached : ∀ {s t : String}, s.toList.getLast? = some '&' ∨ s.toList.getLast? = some '*' →
    K s → K t → K (s ++ t)
  call : ∀ {s t}, K s → K t → K (s ++ "(" ++ t ++ ")")
  template : ∀ {t}, K t → K ("template <" ++ t ++ ">")

/-- What is kept by putting something between two texts is kept by putting it between each two. -/
theorem joinWith_of {K : String → Prop} {sep : String} (hempty : K "")
    (hsep : ∀ {s t}, K s → K t → K (s ++ sep ++ t)) :
    ∀ {ts : List String}, (∀ t ∈ ts, K t) → K (joinWith sep ts)
  | [], _ => hempty
  | [t], h => by rw [joinWith, String.intercalate_singleton]; exact h t (by simp)
  | t :: u :: ts, h => by
    have ih : K (joinWith sep (u :: ts)) :=
      joinWith_of hempty hsep fun t ht => h t (List.mem_cons_of_mem _ ht)
    rw [joinWith, String.intercalate_cons_cons]
    exact hsep (h t (by simp)) ih

namespace Combines

variable {K : String → Prop} (hK : Combines K)
include hK

theorem attach {type name : String} (ht : K type) (hn : K name) : K (attach type name) := by
  rw [Code.attach]
  split
  next h => exact hK.attached (.inl h) ht hn
  next h => exact hK.attached (.inr h) ht hn
  next => exact hK.between " " (by simp) ht hn

theorem listed {ts : List String} (h : ∀ t ∈ ts, K t) : K (joinWith ", " ts) :=
  joinWith_of hK.empty (hK.between ", " (by simp)) h

variable {f : Function}

theorem signatureAs (h : ∀ t ∈ f.texts, K t) {name : String} (hn : K name) :
    K (f.signatureAs name) := by
  have hparams : K (joinWith ", " (f.params.map Param.render)) := by
    refine hK.listed (List.forall_mem_map.2 fun p hp => ?_)
    have hmem : ∀ t ∈ [p.type, p.name], K t := fun t ht =>
      h t (List.mem_append_left _ (List.mem_append_right _ (List.mem_flatMap.2 ⟨p, hp, ht⟩)))
    rw [Param.render]
    split
    · exact hmem _ (by simp)
    · exact hK.attach (hmem _ (by simp)) (hmem _ (by simp))
  have hconst : ∀ {s}, K s → K (s ++ if f.isConst then " const" else "") := fun hs => by
    split
    · exact hK.const hs
    · simpa using hs
  rw [Function.signatureAs]
  refine hconst ?_
  split
  next type hreturns =>
    exact hK.call (hK.attach (h _ (by simp [Function.texts, hreturns])) hn) hparams
  next => exact hK.call hn hparams

theorem declaration (h : ∀ t ∈ f.texts, K t) : K f.declaration := by
  have hsignature := hK.signatureAs h (h f.name (by simp [Function.texts]))
  have hexplicit : K ((if f.isExplicit then "explicit " else "") ++ f.signatureAs f.name) := by
    split
    · exact hK.behind _ (by simp) hsignature
    · simpa using hsignature
  rw [Function.declaration, Function.specifiers, String.append_assoc]
  split
  · exact hK.behind _ (by simp) hexplicit
  · simpa using hexplicit

theorem definition (h : ∀ t ∈ f.texts, K t) : K f.definition := by
  rw [Function.definition]
  split
  next scope hscope =>
    exact hK.signatureAs h (hK.between "::" (by simp) (h _ (by simp [Function.texts, hscope]))
      (h _ (by simp [Function.texts])))
  next => exact hK.declaration h

theorem defined (h : ∀ t ∈ f.texts, K t) : K (f.definition ++ f.initializers) := by
  have hdefinition := hK.definition h
  rw [Function.initializers]
  split
  · simpa using hdefinition
  · rw [← String.append_assoc]
    refine hK.between " : " (by simp) hdefinition (hK.listed (List.forall_mem_map.2 fun i hi => ?_))
    have hmem : ∀ t ∈ [i.1, i.2], K t := fun t ht =>
      h t (List.mem_append_right _ (List.mem_flatMap.2 ⟨i, hi, ht⟩))
    exact hK.call (hmem i.1 (by simp)) (hmem i.2 (by simp))

theorem templateLines {params : List String} {force : Bool} (h : ∀ t ∈ params, K t) :
    ∀ line ∈ templateLines params force, K line := by
  rw [Code.templateLines]
  split
  · simp
  · intro line hline
    rw [List.mem_singleton.1 hline]
    exact hK.template (hK.listed (List.forall_mem_map.2 fun p hp =>
      hK.behind _ (by simp) (h p hp)))

end Combines

end TypeGen.Code
