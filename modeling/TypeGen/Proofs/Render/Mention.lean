import TypeGen.Render.Integration
import TypeGen.Render.Outline

/-!
Mentions: the functions that generated code declares and defines, each with the namespaces and the
type that it stands in. They are gathered from the steps, whatever the steps are nested in.
-/

namespace TypeGen.Code

open TypeGen.Spec TypeGen.Render

/-- Where a function stands: the namespaces around it, outermost first, and the type whose body it is
in, if it is in one. -/
structure Site where
  spaces : List String
  owner : Option String
  deriving DecidableEq, Repr

def Site.top : Site := ⟨[], none⟩

def Site.within (s : Site) (space : Option String) : Site := ⟨s.spaces ++ space.toList, s.owner⟩

/-- A type as its members are qualified by it: a specialization has its arguments in its name. -/
def typeName (name : String) (params : List String) (specialization : Bool) : String :=
  if specialization then name else name ++ templateArgs params

structure Mention where
  site : Site
  function : Function
  /-- With a body. -/
  defines : Bool
  deriving DecidableEq, Repr

mutual

@[simp]
def Step.mentions (site : Site) : Step → List Mention
  | .declare f => [⟨site, f, false⟩]
  | .define f body => ⟨site, f, true⟩ :: mentionsOf site body
  | .struct name params specialization body =>
    mentionsOf ⟨site.spaces, some (typeName name params specialization)⟩ body
  | .inSpace name body => mentionsOf (site.within name) body
  | .semicolon body => mentionsOf site body
  | .spaced body => mentionsOf site body
  | .braces body => mentionsOf site body
  | .parens body => mentionsOf site body
  | .angles body => mentionsOf site body
  | .block _ _ body => mentionsOf site body
  | .switch _ body => mentionsOf site body
  | .case _ _ body => mentionsOf site body
  | .default _ body => mentionsOf site body
  | .ifElse _ body otherwise => mentionsOf site body ++ mentionsOf site otherwise
  | .ifChain arms otherwise => mentionsOfArms site arms ++ mentionsOf site otherwise
  | .join _ items => mentionsOfItems site items
  | _ => []

@[simp]
def mentionsOf (site : Site) : List Step → List Mention
  | [] => []
  | s :: rest => s.mentions site ++ mentionsOf site rest

def mentionsOfItems (site : Site) : List (List Step) → List Mention
  | [] => []
  | item :: rest => mentionsOf site item ++ mentionsOfItems site rest

def mentionsOfArms (site : Site) : List (String × List Step) → List Mention
  | [] => []
  | (_, body) :: rest => mentionsOf site body ++ mentionsOfArms site rest

end

/-- Steps that neither declare nor define a function. -/
def Mute (steps : List Step) : Prop := ∀ site, mentionsOf site steps = []

theorem mentionsOf_append (site : Site) : ∀ xs ys : List Step,
    mentionsOf site (xs ++ ys) = mentionsOf site xs ++ mentionsOf site ys
  | [], _ => rfl
  | x :: xs, ys => by
    rw [List.cons_append, mentionsOf, mentionsOf, mentionsOf_append site xs ys, List.append_assoc]

theorem mentionsOf_flatMap {α : Type} (site : Site) (f : α → List Step) : ∀ xs : List α,
    mentionsOf site (xs.flatMap f) = xs.flatMap fun x => mentionsOf site (f x)
  | [] => rfl
  | x :: xs => by
    rw [List.flatMap_cons, mentionsOf_append, mentionsOf_flatMap site f xs, List.flatMap_cons]

theorem mentionsOf_map {α : Type} (site : Site) (f : α → Step) : ∀ xs : List α,
    mentionsOf site (xs.map f) = xs.flatMap fun x => (f x).mentions site
  | [] => rfl
  | x :: xs => by rw [List.map_cons, mentionsOf, mentionsOf_map site f xs, List.flatMap_cons]

theorem mentionsOfItems_eq (site : Site) (items : List (List Step)) :
    mentionsOfItems site items = items.flatMap (mentionsOf site) := by
  induction items with
  | nil => rfl
  | cons item rest ih => rw [mentionsOfItems, ih, List.flatMap_cons]

theorem mentionsOfArms_eq (site : Site) (arms : List (String × List Step)) :
    mentionsOfArms site arms = arms.flatMap fun arm => mentionsOf site arm.2 := by
  induction arms with
  | nil => rfl
  | cons arm rest ih => rw [mentionsOfArms, ih, List.flatMap_cons]

theorem Mute.append {xs ys : List Step} (hx : Mute xs) (hy : Mute ys) : Mute (xs ++ ys) :=
  fun site => by rw [mentionsOf_append, hx, hy]; rfl

theorem mute_map {α : Type} {f : α → Step} (h : ∀ x site, (f x).mentions site = [])
    (xs : List α) : Mute (xs.map f) := fun site => by
  rw [mentionsOf_map]; simp [h]

theorem mute_switch (subject : String) {body : List Step} (h : Mute body) :
    Mute [.switch subject body] := fun site => by simp [h site]

theorem mute_ifChain {arms : List (String × List Step)} {otherwise : List Step}
    (harms : ∀ arm ∈ arms, Mute arm.2) (h : Mute otherwise) : Mute [.ifChain arms otherwise] :=
  fun site => by
    have hnone : mentionsOfArms site arms = [] := by
      rw [mentionsOfArms_eq]
      exact List.flatMap_eq_nil_iff.2 fun arm harm => harms arm harm site
    simp [hnone, h site]

theorem mute_line (s : String) : Mute [.line s] := fun _ => rfl

theorem mute_doc (text : Option String) : Mute (text.toList.map .doc) := mute_map (fun _ _ => rfl) _

end TypeGen.Code

namespace TypeGen.Render

open TypeGen.Code TypeGen.Spec

/-! ### What features mention -/

section Emitters

variable (h : Head) (site : Site)

theorem mentions_memberDef {f : Function} {body : List Step} (hb : Mute body) :
    mentionsOf site (memberDef h f body) = [⟨site, f, true⟩] := by
  simp [memberDef, mentionsOf, Step.mentions, hb site]

theorem mentions_comparisonDecls (ops : List String) : mentionsOf site (comparisonDecls h ops) =
    ops.map fun op => ⟨site, comparison h op, false⟩ := by
  rw [comparisonDecls, mentionsOf_map, List.map_eq_flatMap]; rfl

/-- The type that a specialization of a template for the type is. -/
def specialized (h : Head) (space template : String) : Site :=
  ⟨[space], some (template ++ "<" ++ qualified h ++ ">")⟩

theorem mentions_specialization (space template : String) (members : List Function) :
    mentionsOf Site.top (specialization h space template members) =
      members.map fun f => ⟨specialized h space template, f, false⟩ := by
  simp only [specialization, mentionsOf, Step.mentions, List.append_nil, mentionsOf_map]
  exact List.map_eq_flatMap.symm

theorem mentions_fmtDecls (param : String) : mentionsOf Site.top (fmtDecls h param) =
    [⟨⟨h.space.toList, none⟩, formatFunction h param, false⟩,
      ⟨⟨h.space.toList, none⟩, streamFunction h param, false⟩] := by
  simp [fmtDecls, mentionsOf, Step.mentions, Site.within, Site.top]

end Emitters

/-! ### What an outline mentions -/

section Outline

variable {S : Type} [HasHead S]

/-- What a feature contributes to a slot, if anything. -/
def Emitter.contribution (e : Emitter S) (slot : Slot) (s : S) : List Step :=
  ((e.emit slot).map (· s)).getD []

theorem mentions_emitAll (r : Registry S) (slot : Slot) (s : S) (site : Site) :
    mentionsOf site (r.emitAll slot s) =
      (r.enabled s).flatMap fun e => mentionsOf site (e.contribution slot s) := by
  rw [Registry.emitAll, mentionsOf_flatMap]
  induction r.enabled s with
  | nil => rfl
  | cons e es ih =>
    rw [List.flatMap_cons, ← ih, List.filterMap_cons, Emitter.contribution]
    cases e.emit slot <;> rfl

/-- What stands in front of a type. -/
theorem mute_preamble (h : Head) : Mute ((if h.forwards.isEmpty then []
    else [.spaced (h.forwards.map fun d => .semicolon [.text (bareDeclaration d)])]) ++
      h.doc.toList.map Step.doc) := by
  refine Mute.append (fun site => ?_) (mute_doc _)
  split
  · rfl
  · simp only [mentionsOf, Step.mentions, mentionsOf_map]; simp

theorem mute_headerIncludes (r : Renderer S) (s : S) : Mute (if (r.headerIncludes s).isEmpty then []
    else [.spaced [.includes (r.headerIncludes s)]]) := fun _ => by split <;> rfl

theorem mute_postIncludes (h : Head) : Mute (if h.postIncludes.isEmpty then []
    else [.blank, .includes (IncludeList.ofList h.postIncludes)]) := fun _ => by split <;> rfl

theorem mentions_typeSection (r : Renderer S) (s : S) (site : Site) :
    mentionsOf site (r.typeSection s) = mentionsOf site (r.type s) := by
  rw [Renderer.typeSection, mentionsOf_append, mute_preamble, List.nil_append]

theorem mentions_header (r : Renderer S) (s : S) : mentionsOf Site.top (r.header s) =
    mentionsOf ⟨(HasHead.head s).space.toList, none⟩ (r.type s) ++
      mentionsOf Site.top (r.registry.emitAll .decls s) ++
      (if (HasHead.head s).isGeneric then mentionsOf Site.top (r.definitions s) else []) := by
  have hspace : mentionsOf Site.top [.inSpace (HasHead.head s).space (r.typeSection s)] =
      mentionsOf ⟨(HasHead.head s).space.toList, none⟩ (r.type s) := by
    rw [← mentions_typeSection r s]
    simp [mentionsOf, Step.mentions, Site.within, Site.top]
  simp only [Renderer.header, mentionsOf_append]
  rw [mute_headerIncludes, mute_postIncludes, hspace, List.nil_append, List.append_nil]
  split <;> rfl

theorem mentions_source (r : Renderer S) (s : S) : mentionsOf Site.top (r.source s) =
    if (HasHead.head s).isGeneric then [] else mentionsOf Site.top (r.definitions s) := by
  rw [Renderer.source]
  split
  · rfl
  · rw [mentionsOf]; rfl

theorem mentions_definitions (r : Renderer S) (s : S) : mentionsOf Site.top (r.definitions s) =
    (if r.hasMembers s || r.registry.hasMemberDefs s then
      mentionsOf ⟨(HasHead.head s).space.toList, none⟩ (r.members s) ++
        mentionsOf ⟨(HasHead.head s).space.toList, none⟩ (r.registry.emitAll .memberDefs s)
      else []) ++ mentionsOf Site.top (r.registry.emitAll .defs s) := by
  rw [Renderer.definitions, mentionsOf_append]
  congr 1
  split
  · simp [mentionsOf, Step.mentions, mentionsOf_append, Site.within, Site.top]
  · rfl

end Outline

end TypeGen.Render
