import TypeGen.Proofs.Render.Definition

/-!
Decisions: the switches and the conditions of generated code, each with the function that it stands
in. They are gathered as mentions are, so that code which decides nothing can be left out of sight.
-/

namespace TypeGen.Code

open TypeGen.Spec TypeGen.Render

/-- A switch or a condition, and the innermost function around it. -/
structure Decision where
  owner : Option Function
  step : Step

mutual

@[simp]
def Step.decisions (owner : Option Function) : Step → List Decision
  | .switch subject body => ⟨owner, .switch subject body⟩ :: decisionsOf owner body
  | .ifElse condition body otherwise =>
    ⟨owner, .ifElse condition body otherwise⟩ :: (decisionsOf owner body ++ decisionsOf owner otherwise)
  | .ifChain arms otherwise =>
    ⟨owner, .ifChain arms otherwise⟩ :: (decisionsOfArms owner arms ++ decisionsOf owner otherwise)
  | .define f body => decisionsOf (some f) body
  | .struct _ _ _ body => decisionsOf owner body
  | .inSpace _ body => decisionsOf owner body
  | .semicolon body => decisionsOf owner body
  | .spaced body => decisionsOf owner body
  | .braces body => decisionsOf owner body
  | .parens body => decisionsOf owner body
  | .angles body => decisionsOf owner body
  | .block _ _ body => decisionsOf owner body
  | .case _ _ body => decisionsOf owner body
  | .default _ body => decisionsOf owner body
  | .join _ items => decisionsOfItems owner items
  | _ => []

@[simp]
def decisionsOf (owner : Option Function) : List Step → List Decision
  | [] => []
  | s :: rest => s.decisions owner ++ decisionsOf owner rest

def decisionsOfItems (owner : Option Function) : List (List Step) → List Decision
  | [] => []
  | item :: rest => decisionsOf owner item ++ decisionsOfItems owner rest

def decisionsOfArms (owner : Option Function) : List (String × List Step) → List Decision
  | [] => []
  | (_, body) :: rest => decisionsOf owner body ++ decisionsOfArms owner rest

end

variable {owner : Option Function}

theorem decisionsOf_append (xs ys : List Step) :
    decisionsOf owner (xs ++ ys) = decisionsOf owner xs ++ decisionsOf owner ys := by
  induction xs with
  | nil => rfl
  | cons x xs ih => rw [List.cons_append, decisionsOf, ih, decisionsOf, List.append_assoc]

theorem decisionsOf_eq_flatMap (steps : List Step) :
    decisionsOf owner steps = steps.flatMap (·.decisions owner) := by
  induction steps with
  | nil => rfl
  | cons s rest ih => rw [decisionsOf, ih, List.flatMap_cons]

theorem decisionsOfItems_eq (items : List (List Step)) :
    decisionsOfItems owner items = items.flatMap (decisionsOf owner) := by
  induction items with
  | nil => rfl
  | cons item rest ih => rw [decisionsOfItems, ih, List.flatMap_cons]

theorem decisionsOfArms_eq (arms : List (String × List Step)) :
    decisionsOfArms owner arms = arms.flatMap fun arm => decisionsOf owner arm.2 := by
  induction arms with
  | nil => rfl
  | cons arm rest ih => rw [decisionsOfArms, ih, List.flatMap_cons]

/-! ### Code without decisions -/

/-- Steps that are carried out as they stand. -/
def Straight (steps : List Step) : Prop := ∀ owner, decisionsOf owner steps = []

theorem straight_nil : Straight [] := fun _ => rfl

theorem straight_line (s : String) : Straight [.line s] := fun _ => rfl

theorem Straight.append {xs ys : List Step} (hx : Straight xs) (hy : Straight ys) :
    Straight (xs ++ ys) := fun owner => by rw [decisionsOf_append, hx, hy]; rfl

theorem straight_map {α : Type} {f : α → Step} (h : ∀ x owner, (f x).decisions owner = [])
    (xs : List α) : Straight (xs.map f) := fun owner => by
  rw [decisionsOf_eq_flatMap, List.flatMap_map]
  exact List.flatMap_eq_nil_iff.2 fun x _ => h x owner

theorem straight_flatMap {α : Type} {f : α → List Step} (h : ∀ x, Straight (f x)) :
    ∀ xs : List α, Straight (xs.flatMap f)
  | [] => straight_nil
  | x :: xs => by rw [List.flatMap_cons]; exact (h x).append (straight_flatMap h xs)

theorem straight_join {α : Type} {f : α → List Step} (h : ∀ x, Straight (f x)) (separator : String)
    (xs : List α) : Straight [.join separator (xs.map f)] := fun owner => by
  rw [decisionsOf, Step.decisions, decisionsOfItems_eq, List.flatMap_map]
  exact (List.append_nil _).trans (List.flatMap_eq_nil_iff.2 fun x _ => h x owner)

/-- Straight code in front of other code leaves its decisions as they are. -/
theorem Straight.decisionsOf_append {xs : List Step} (hx : Straight xs) (ys : List Step) :
    decisionsOf owner (xs ++ ys) = decisionsOf owner ys := by
  rw [TypeGen.Code.decisionsOf_append, hx, List.nil_append]

theorem decisions_switch (subject : String) {cases : List Step} (h : Straight cases) :
    decisionsOf owner [.switch subject cases] = [⟨owner, .switch subject cases⟩] := by
  rw [decisionsOf, Step.decisions, h]; rfl

theorem decisions_ifChain {arms : List (String × List Step)} {otherwise : List Step}
    (harms : ∀ arm ∈ arms, Straight arm.2) (h : Straight otherwise) :
    decisionsOf owner [.ifChain arms otherwise] = [⟨owner, .ifChain arms otherwise⟩] := by
  have hnone : decisionsOfArms owner arms = [] := by
    rw [decisionsOfArms_eq]
    exact List.flatMap_eq_nil_iff.2 fun arm harm => harms arm harm owner
  rw [decisionsOf, Step.decisions, hnone, h]; rfl

end TypeGen.Code

namespace TypeGen.Render

open TypeGen.Code TypeGen.Spec

/-! ### What an outline decides -/

section Emitters

variable (h : Head) {owner : Option Function}

theorem decisions_memberDef (f : Function) (body : List Step) :
    decisionsOf owner (memberDef h f body) = decisionsOf (some f) body := by simp [memberDef]

theorem straight_memberDef (f : Function) {body : List Step} (hb : Straight body) :
    Straight (memberDef h f body) := fun owner => by rw [decisions_memberDef, hb]

theorem straight_comparisonDecls (ops : List String) : Straight (comparisonDecls h ops) :=
  straight_map (fun _ _ => rfl) _

theorem straight_comparisonDefs (ops : List String) {body : String → List Step}
    (hb : ∀ op, Straight (body op)) : Straight (comparisonDefs h ops body) :=
  straight_join (fun op => straight_memberDef h _ (hb op)) _ _

theorem straight_specialization (space template : String) (members : List Function) :
    Straight (specialization h space template members) := fun owner => by
  have hmembers := straight_map (f := Step.declare) (fun _ _ => rfl) members owner
  simp [specialization, hmembers]

theorem straight_hashDefs (param : String) {body : List Step} (hb : Straight body) :
    Straight (hashDefs h param body) := fun owner => by
  simp [hashDefs, straight_memberDef h _ hb owner]

theorem straight_arbitraryDefs (generator : String) : Straight (arbitraryDefs h generator) :=
  fun owner => by simp [arbitraryDefs, straight_memberDef h _ (straight_line _) owner]

theorem decisions_jsonDefs (param : String) (reading writing : List Step) :
    decisionsOf owner (jsonDefs h param reading writing) =
      decisionsOf (some (fromJson h)) reading ++ decisionsOf (some (toJson h param)) writing := by
  simp [jsonDefs, decisionsOf_append, decisions_memberDef]

theorem straight_fmtDecls (param : String) : Straight (fmtDecls h param) := fun _ => rfl

theorem decisions_fmtDefs (param : String) (body : List Step) :
    decisionsOf owner (fmtDefs h param body) = decisionsOf (some (formatFunction h param)) body := by
  simp [fmtDefs]

end Emitters

section Outline

variable {S : Type} [HasHead S] {owner : Option Function}

theorem decisions_emitAll (r : Registry S) (slot : Slot) (s : S) :
    decisionsOf owner (r.emitAll slot s) = (HasHead.head s).features.toList.flatMap fun f =>
      decisionsOf owner ((r.emitterOf f).contribution slot s) := by
  rw [← flatMap_enabled r s (g := fun e => decisionsOf owner (e.contribution slot s)) rfl,
    Registry.emitAll]
  induction r.enabled s with
  | nil => rfl
  | cons e es ih =>
    rw [List.flatMap_cons, ← ih, List.filterMap_cons, Emitter.contribution]
    cases e.emit slot with
    | none => rfl
    | some emit => simp [decisionsOf_append]

theorem straight_emitAll {r : Registry S} {slot : Slot} {s : S}
    (h : ∀ f, Straight ((r.emitterOf f).contribution slot s)) : Straight (r.emitAll slot s) :=
  fun owner => by
    rw [decisions_emitAll]
    exact List.flatMap_eq_nil_iff.2 fun f _ => h f owner

theorem decisions_typeSection (r : Renderer S) (s : S) :
    decisionsOf owner (r.typeSection s) = decisionsOf owner (r.type s) := by
  have hforwards : Straight (if (HasHead.head s).forwards.isEmpty then [] else
      [.spaced ((HasHead.head s).forwards.map fun d => .semicolon [.text (bareDeclaration d)])]) := by
    split
    · exact straight_nil
    · intro owner
      have hall := straight_map (f := fun d => Step.semicolon [.text (bareDeclaration d)])
        (fun _ _ => rfl) (HasHead.head s).forwards owner
      simp [hall]
  have hdoc : Straight ((HasHead.head s).doc.toList.map Step.doc) := straight_map (fun _ _ => rfl) _
  rw [Renderer.typeSection, decisionsOf_append, (hforwards.append hdoc) owner]
  rfl

theorem decisions_definitions (r : Renderer S) (s : S) : decisionsOf owner (r.definitions s) =
    (if r.hasMembers s || r.registry.hasMemberDefs s then
      decisionsOf owner (r.members s) ++ decisionsOf owner (r.registry.emitAll .memberDefs s)
    else []) ++ decisionsOf owner (r.registry.emitAll .defs s) := by
  rw [Renderer.definitions, decisionsOf_append]
  congr 1
  split
  · simp [decisionsOf_append]
  · rfl

/-- Header and source together decide what the type does, what is declared with it and, once, what is
defined for it. -/
theorem decisions_code (r : Renderer S) (s : S) : decisionsOf owner (r.header s ++ r.source s) =
    decisionsOf owner (r.type s) ++ decisionsOf owner (r.registry.emitAll .decls s) ++
      decisionsOf owner (r.definitions s) := by
  have hincludes : Straight (if (r.headerIncludes s).isEmpty then []
      else [.spaced [.includes (r.headerIncludes s)]]) := fun _ => by split <;> rfl
  have hpost : Straight (if (HasHead.head s).postIncludes.isEmpty then []
      else [.blank, .includes (IncludeList.ofList (HasHead.head s).postIncludes)]) :=
    fun _ => by split <;> rfl
  have hspace : decisionsOf owner [.inSpace (HasHead.head s).space (r.typeSection s)] =
      decisionsOf owner (r.type s) := by
    rw [← decisions_typeSection]; simp
  rw [decisionsOf_append, Renderer.header, Renderer.source]
  simp only [decisionsOf_append, hincludes owner, hpost owner, hspace, List.nil_append,
    List.append_nil]
  -- one of the two files has the definitions
  split <;> simp

end Outline

end TypeGen.Render
