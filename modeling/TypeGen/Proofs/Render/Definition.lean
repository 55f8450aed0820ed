import Mathlib.Data.List.Basic
import TypeGen.Proofs.Render.Mention

/-!
Definitions: the functions that generated code defines, each with its body and with the lines of a
template directly in front of it. They are gathered as mentions are, so that the definitions of a
piece of code are what it mentions with a body.
-/

namespace TypeGen.Code

open TypeGen.Spec TypeGen.Render

/-- A function with its body, where it stands. -/
structure Definition where
  site : Site
  /-- The template that it stands under, if there is one. -/
  heading : List String
  function : Function
  body : List Step

def Definition.mention (d : Definition) : Mention := ⟨d.site, d.function, true⟩

/-- The template that a step puts in front of what follows. -/
def Step.heading : Step → List String
  | .template params force => templateLines params force
  | _ => []

mutual

@[simp]
def Step.definitions (site : Site) (heading : List String) : Step → List Definition
  | .define f body => ⟨site, heading, f, body⟩ :: definitionsOf site [] body
  | .struct name params specialization body =>
    definitionsOf ⟨site.spaces, some (typeName name params specialization)⟩ [] body
  | .inSpace name body => definitionsOf (site.within name) [] body
  | .semicolon body => definitionsOf site [] body
  | .spaced body => definitionsOf site [] body
  | .braces body => definitionsOf site [] body
  | .parens body => definitionsOf site [] body
  | .angles body => definitionsOf site [] body
  | .block _ _ body => definitionsOf site [] body
  | .switch _ body => definitionsOf site [] body
  | .case _ _ body => definitionsOf site [] body
  | .default _ body => definitionsOf site [] body
  | .ifElse _ body otherwise => definitionsOf site [] body ++ definitionsOf site [] otherwise
  | .ifChain arms otherwise => definitionsOfArms site arms ++ definitionsOf site [] otherwise
  | .join _ items => definitionsOfItems site items
  | _ => []

/-- The definitions in steps behind a template. -/
@[simp]
def definitionsOf (site : Site) (heading : List String) : List Step → List Definition
  | [] => []
  | s :: rest => s.definitions site heading ++ definitionsOf site s.heading rest

def definitionsOfItems (site : Site) : List (List Step) → List Definition
  | [] => []
  | item :: rest => definitionsOf site [] item ++ definitionsOfItems site rest

def definitionsOfArms (site : Site) : List (String × List Step) → List Definition
  | [] => []
  | (_, body) :: rest => definitionsOf site [] body ++ definitionsOfArms site rest

end

mutual

theorem Step.map_mention_definitions (site : Site) : ∀ (heading : List String) (s : Step),
    (s.definitions site heading).map Definition.mention =
      (s.mentions site).filter (·.defines)
  | _, .define f body => by
    simp [Definition.mention, map_mention_definitionsOf site [] body]
  | _, .struct name params specialization body => map_mention_definitionsOf _ [] body
  | _, .inSpace name body => map_mention_definitionsOf _ [] body
  | _, .semicolon body => map_mention_definitionsOf site [] body
  | _, .spaced body => map_mention_definitionsOf site [] body
  | _, .braces body => map_mention_definitionsOf site [] body
  | _, .parens body => map_mention_definitionsOf site [] body
  | _, .angles body => map_mention_definitionsOf site [] body
  | _, .block _ _ body => map_mention_definitionsOf site [] body
  | _, .switch _ body => map_mention_definitionsOf site [] body
  | _, .case _ _ body => map_mention_definitionsOf site [] body
  | _, .default _ body => map_mention_definitionsOf site [] body
  | _, .ifElse _ body otherwise => by
    simp [map_mention_definitionsOf site [] body, map_mention_definitionsOf site [] otherwise]
  | _, .ifChain arms otherwise => by
    simp [map_mention_definitionsOfArms site arms, map_mention_definitionsOf site [] otherwise]
  | _, .join _ items => map_mention_definitionsOfItems site items
  | _, .declare f => rfl
  | _, .text _ | _, .line _ | _, .newline | _, .blank | _, .indent | _, .dedent
  | _, .doc _ | _, .template _ _ | _, .includes _ | _, .fail _ | _, .unwind _ => rfl

/-- Definitions are what is mentioned with a body. -/
theorem map_mention_definitionsOf (site : Site) : ∀ (heading : List String) (steps : List Step),
    (definitionsOf site heading steps).map Definition.mention =
      (mentionsOf site steps).filter (·.defines)
  | _, [] => rfl
  | heading, s :: rest => by
    rw [definitionsOf, mentionsOf, List.map_append, List.filter_append,
      Step.map_mention_definitions site heading s, map_mention_definitionsOf site s.heading rest]

theorem map_mention_definitionsOfItems (site : Site) : ∀ items : List (List Step),
    (definitionsOfItems site items).map Definition.mention =
      (mentionsOfItems site items).filter (·.defines)
  | [] => rfl
  | item :: rest => by
    rw [definitionsOfItems, mentionsOfItems, List.map_append, List.filter_append,
      map_mention_definitionsOf site [] item, map_mention_definitionsOfItems site rest]

theorem map_mention_definitionsOfArms (site : Site) : ∀ arms : List (String × List Step),
    (definitionsOfArms site arms).map Definition.mention =
      (mentionsOfArms site arms).filter (·.defines)
  | [] => rfl
  | (_, body) :: rest => by
    rw [definitionsOfArms, mentionsOfArms, List.map_append, List.filter_append,
      map_mention_definitionsOf site [] body, map_mention_definitionsOfArms site rest]

end

theorem Mute.definitionsOf_eq {steps : List Step} (h : Mute steps) (site : Site)
    (heading : List String) : definitionsOf site heading steps = [] := by
  have hmap := map_mention_definitionsOf site heading steps
  rw [h site] at hmap
  exact List.map_eq_nil_iff.1 hmap

/-! ### Code behind a template -/

/-- Steps that a template in front of them does not reach. -/
def Unheaded (steps : List Step) : Prop :=
  ∀ site heading, definitionsOf site heading steps = definitionsOf site [] steps

theorem unheaded_nil : Unheaded [] := fun _ _ => rfl

theorem unheaded_cons {s : Step}
    (h : ∀ site heading, s.definitions site heading = s.definitions site []) (rest : List Step) :
    Unheaded (s :: rest) := fun site heading => by rw [definitionsOf, definitionsOf, h]

theorem definitionsOf_append {ys : List Step} (hys : Unheaded ys) (site : Site) :
    ∀ (heading : List String) (xs : List Step), definitionsOf site heading (xs ++ ys) =
      definitionsOf site heading xs ++ definitionsOf site [] ys
  | heading, [] => hys site heading
  | heading, x :: xs => by
    rw [List.cons_append, definitionsOf, definitionsOf, definitionsOf_append hys site x.heading xs,
      List.append_assoc]

theorem Unheaded.append {xs ys : List Step} (hx : Unheaded xs) (hy : Unheaded ys) :
    Unheaded (xs ++ ys) := fun site heading => by
  rw [definitionsOf_append hy, definitionsOf_append hy, hx]

theorem unheaded_flatMap {α : Type} {f : α → List Step} (h : ∀ x, Unheaded (f x)) :
    ∀ xs : List α, Unheaded (xs.flatMap f)
  | [] => unheaded_nil
  | x :: xs => by rw [List.flatMap_cons]; exact (h x).append (unheaded_flatMap h xs)

theorem definitionsOf_flatMap {α : Type} {f : α → List Step} (h : ∀ x, Unheaded (f x)) (site : Site) :
    ∀ xs : List α, definitionsOf site [] (xs.flatMap f) =
      xs.flatMap fun x => definitionsOf site [] (f x)
  | [] => rfl
  | x :: xs => by
    rw [List.flatMap_cons, definitionsOf_append (unheaded_flatMap h xs),
      definitionsOf_flatMap h site xs, List.flatMap_cons]

theorem definitionsOfItems_eq (site : Site) : ∀ items : List (List Step),
    definitionsOfItems site items = items.flatMap (definitionsOf site [])
  | [] => rfl
  | item :: rest => by rw [definitionsOfItems, definitionsOfItems_eq site rest, List.flatMap_cons]

/-! ### Code without declarations -/

/-- Steps that declare nothing. -/
def DefinesOnly (steps : List Step) : Prop := ∀ site, ∀ m ∈ mentionsOf site steps, m.defines = true

/-- What such steps mention are their definitions. -/
theorem DefinesOnly.mentionsOf_eq {steps : List Step} (h : DefinesOnly steps) (site : Site) :
    mentionsOf site steps = (definitionsOf site [] steps).map Definition.mention := by
  rw [map_mention_definitionsOf, List.filter_eq_self.2 (h site)]

theorem Mute.definesOnly {steps : List Step} (h : Mute steps) : DefinesOnly steps :=
  fun site m hm => by rw [h site] at hm; cases hm

theorem definesOnly_nil : DefinesOnly [] := fun _ _ hm => nomatch hm

theorem DefinesOnly.append {xs ys : List Step} (hx : DefinesOnly xs) (hy : DefinesOnly ys) :
    DefinesOnly (xs ++ ys) := fun site m hm => by
  rw [mentionsOf_append] at hm
  exact (List.mem_append.1 hm).elim (hx site m) (hy site m)

theorem definesOnly_flatMap {α : Type} {f : α → List Step} (h : ∀ x, DefinesOnly (f x))
    (xs : List α) : DefinesOnly (xs.flatMap f) := fun site m hm => by
  rw [mentionsOf_flatMap] at hm
  obtain ⟨x, -, hm⟩ := List.mem_flatMap.1 hm
  exact h x site m hm

theorem definesOnly_join {α : Type} {f : α → List Step} (h : ∀ x, DefinesOnly (f x))
    (separator : String) (xs : List α) : DefinesOnly [.join separator (xs.map f)] :=
  fun site m hm => by
    simp only [mentionsOf, Step.mentions, mentionsOfItems_eq, List.append_nil, List.flatMap_map] at hm
    obtain ⟨x, -, hm⟩ := List.mem_flatMap.1 hm
    exact h x site m hm

theorem DefinesOnly.inSpace {body : List Step} (h : DefinesOnly body) (name : Option String) :
    DefinesOnly [.inSpace name body] := fun site m hm => h (site.within name) m (by simpa using hm)

theorem definesOnly_define (f : Function) {body : List Step} (h : Mute body) :
    DefinesOnly [.define f body] := fun site m hm => by
  simp only [mentionsOf, Step.mentions, h site, List.append_nil] at hm
  rw [List.mem_singleton.1 hm]

end TypeGen.Code

namespace TypeGen.Render

open TypeGen.Code TypeGen.Spec

/-! ### What features add -/

/-- A function that code declares in one place and defines, with a body, in another. -/
structure Addition where
  /-- Where it is declared. -/
  site : Site
  function : Function
  body : List Step

namespace Addition

def declared (a : Addition) : Mention := ⟨a.site, a.function, false⟩

/-- Members are defined under the template of the type, and so are those of specializations for it. -/
def defined (h : Head) (a : Addition) : Definition where
  site := ⟨a.site.spaces, none⟩
  heading := if a.site.owner.isSome then templateLines h.params false else []
  function := a.function
  body := a.body

end Addition

/-- Where the members of a type are declared. -/
def within (h : Head) : Site := ⟨h.space.toList, some (unqualified h)⟩

/-- Where the functions next to a type stand. -/
def beside (h : Head) : Site := ⟨h.space.toList, none⟩

section Emitters

variable (h : Head) (site : Site)

theorem definesOnly_memberDef (f : Function) {body : List Step} (hb : Mute body) :
    DefinesOnly (memberDef h f body) := by
  have htemplate : Mute [.template h.params false] := fun _ => rfl
  exact htemplate.definesOnly.append (definesOnly_define f hb)

theorem definitions_memberDef {f : Function} {body : List Step} (hb : Mute body) :
    definitionsOf site [] (memberDef h f body) =
      [⟨site, templateLines h.params false, f, body⟩] := by
  simp [memberDef, Step.heading, hb.definitionsOf_eq]

theorem definitions_comparisonDefs (ops : List String) {body : String → List Step}
    (hb : ∀ op, Mute (body op)) : definitionsOf site [] (comparisonDefs h ops body) =
      ops.map fun op => ⟨site, templateLines h.params false, comparison h op, body op⟩ := by
  have hdef := fun op => definitions_memberDef h site (f := comparison h op) (hb op)
  simp only [comparisonDefs, definitionsOf, Step.definitions, definitionsOfItems_eq, List.append_nil,
    List.flatMap_map, hdef]
  exact List.map_eq_flatMap.symm

theorem definitions_hashDefs {param : String} {body : List Step} (hb : Mute body) :
    definitionsOf Site.top [] (hashDefs h param body) =
      [⟨⟨["std"], none⟩, templateLines h.params false, hashFunction h param, body⟩] := by
  simp [hashDefs, definitions_memberDef h _ hb, Site.within, Site.top]

theorem definitions_jsonDefs {param : String} {reading writing : List Step} (hr : Mute reading)
    (hw : Mute writing) : definitionsOf Site.top [] (jsonDefs h param reading writing) =
      [⟨⟨["nlohmann"], none⟩, templateLines h.params false, fromJson h, reading⟩,
        ⟨⟨["nlohmann"], none⟩, templateLines h.params false, toJson h param, writing⟩] := by
  simp [jsonDefs, memberDef, Step.heading, hr.definitionsOf_eq, hw.definitionsOf_eq, Site.within,
    Site.top]

theorem definitions_arbitraryDefs (generator : String) :
    definitionsOf Site.top [] (arbitraryDefs h generator) =
      [⟨⟨["rc"], none⟩, templateLines h.params false, arbitraryFunction h,
        [.line ("return " ++ generator ++ ";")]⟩] := by
  simp [arbitraryDefs, definitions_memberDef h _ (mute_line _), Site.within, Site.top]

theorem definitions_fmtDefs {param : String} {body : List Step} (hb : Mute body) :
    definitionsOf Site.top [] (fmtDefs h param body) =
      [⟨beside h, [], formatFunction h param, body⟩,
        ⟨beside h, [], streamFunction h param, [.line "return s << fmt::to_string(x);"]⟩] := by
  simp [fmtDefs, Step.heading, hb.definitionsOf_eq, Site.within, Site.top, beside]

end Emitters

section Additions

variable {S : Type} [HasHead S]

/-- What an emitter adds for a spec: members of the type, and functions around it. -/
structure Emitter.Adds (e : Emitter S) (s : S) (members around : List Addition) : Prop where
  memberDecls : mentionsOf (within (HasHead.head s)) (e.contribution .memberDecls s) =
    members.map Addition.declared
  memberDefs : definitionsOf (beside (HasHead.head s)) [] (e.contribution .memberDefs s) =
    members.map (Addition.defined (HasHead.head s))
  decls : mentionsOf Site.top (e.contribution .decls s) = around.map Addition.declared
  defs : definitionsOf Site.top [] (e.contribution .defs s) =
    around.map (Addition.defined (HasHead.head s))
  memberDefsOnly : DefinesOnly (e.contribution .memberDefs s)
  defsOnly : DefinesOnly (e.contribution .defs s)

/-- What a kind of specs puts into the functions that all kinds have. -/
structure Filling where
  comparison : String → List Step
  hash : List Step
  reading : List Step
  writing : List Step
  generator : String
  format : List Step
  /-- How the functions around the type take a value of it. -/
  param : String
  fmtParam : String

namespace Filling

variable (x : Filling) (h : Head)

def operators (ops : List String) : List Addition :=
  ops.map fun op => ⟨within h, Render.comparison h op, x.comparison op⟩

/-- The members that a feature adds. -/
def members : Feature → List Addition
  | .eq => x.operators h eqOps
  | .ord => x.operators h ordOps
  | _ => []

/-- The functions that a feature adds around the type. -/
def around : Feature → List Addition
  | .hash => [⟨specialized h "std" "hash", hashFunction h x.param, x.hash⟩]
  | .json => [⟨specialized h "nlohmann" "adl_serializer", fromJson h, x.reading⟩,
      ⟨specialized h "nlohmann" "adl_serializer", toJson h x.param, x.writing⟩]
  | .rapidcheck => [⟨specialized h "rc" "Arbitrary", arbitraryFunction h,
      [.line ("return " ++ x.generator ++ ";")]⟩]
  | .fmt => [⟨beside h, formatFunction h x.fmtParam, x.format⟩,
      ⟨beside h, streamFunction h x.fmtParam, [.line "return s << fmt::to_string(x);"]⟩]
  | _ => []

/-- What holds of every operator, whatever its body, holds of the members that a feature adds. -/
theorem forall_members {P : Addition → Prop}
    (hoperator : ∀ op body, P ⟨within h, Render.comparison h op, body⟩) (f : Feature) :
    ∀ a ∈ x.members h f, P a := fun a ha => by
  cases f with
  | eq | ord => obtain ⟨op, -, rfl⟩ := List.mem_map.1 ha; exact hoperator op _
  | hash | json | rapidcheck | fmt => cases ha

/-- Bodies define nothing. -/
structure IsMute : Prop where
  comparison : ∀ op, Mute (x.comparison op)
  hash : Mute x.hash
  reading : Mute x.reading
  writing : Mute x.writing
  format : Mute x.format

end Filling

theorem adds_nothing (s : S) : (Emitter.nothing : Emitter S).Adds s [] [] :=
  ⟨rfl, rfl, rfl, rfl, definesOnly_nil, definesOnly_nil⟩

variable {s : S} {x : Filling} (hx : x.IsMute)
include hx

theorem adds_comparison {needs : List Include} {ops : List String} {body : S → String → List Step}
    (hbody : body s = x.comparison) :
    (comparisonEmitter needs ops body).Adds s (x.operators (HasHead.head s) ops) [] where
  memberDecls := by
    rw [Filling.operators, List.map_map]; exact mentions_comparisonDecls _ _ ops
  memberDefs := by
    show definitionsOf _ [] (comparisonDefs _ ops (body s)) = _
    rw [hbody, definitions_comparisonDefs _ _ ops hx.comparison, Filling.operators, List.map_map]; rfl
  decls := rfl
  defs := rfl
  memberDefsOnly := by
    show DefinesOnly (comparisonDefs _ ops (body s))
    rw [hbody]
    exact definesOnly_join (fun op => definesOnly_memberDef _ _ (hx.comparison op)) _ _
  defsOnly := definesOnly_nil

theorem adds_hash {param : S → String} {body : S → List Step} (hparam : param s = x.param)
    (hbody : body s = x.hash) :
    (hashEmitter param body).Adds s [] (x.around (HasHead.head s) .hash) where
  memberDecls := rfl
  memberDefs := rfl
  decls := by rw [Filling.around, ← hparam]; exact mentions_specialization _ "std" "hash" _
  defs := by
    rw [Filling.around, ← hparam, ← hbody]; exact definitions_hashDefs _ (hbody ▸ hx.hash)
  memberDefsOnly := definesOnly_nil
  defsOnly := (definesOnly_memberDef _ _ (hbody ▸ hx.hash)).inSpace _

theorem adds_json {needs : List Include} {param : S → String} {reading writing : S → List Step}
    (hparam : param s = x.param) (hreading : reading s = x.reading) (hwriting : writing s = x.writing) :
    (jsonEmitter needs param reading writing).Adds s [] (x.around (HasHead.head s) .json) where
  memberDecls := rfl
  memberDefs := rfl
  decls := by
    rw [Filling.around, ← hparam]; exact mentions_specialization _ "nlohmann" "adl_serializer" _
  defs := by
    rw [Filling.around, ← hparam, ← hreading, ← hwriting]
    exact definitions_jsonDefs _ (hreading ▸ hx.reading) (hwriting ▸ hx.writing)
  memberDefsOnly := definesOnly_nil
  defsOnly := by
    have hblank : DefinesOnly [.blank] := Mute.definesOnly fun _ => rfl
    have hread := definesOnly_memberDef (HasHead.head s) (fromJson (HasHead.head s))
      (hreading ▸ hx.reading : Mute (reading s))
    have hwrite := definesOnly_memberDef (HasHead.head s) (toJson (HasHead.head s) (param s))
      (hwriting ▸ hx.writing : Mute (writing s))
    exact ((hread.append hblank).append hwrite).inSpace _

omit hx in
theorem adds_arbitrary {generator : S → String} (hgenerator : generator s = x.generator) :
    (arbitraryEmitter generator).Adds s [] (x.around (HasHead.head s) .rapidcheck) where
  memberDecls := rfl
  memberDefs := rfl
  decls := mentions_specialization _ "rc" "Arbitrary" _
  defs := by rw [Filling.around, ← hgenerator]; exact definitions_arbitraryDefs _ _
  memberDefsOnly := definesOnly_nil
  defsOnly := (definesOnly_memberDef _ _ (mute_line _)).inSpace _

theorem adds_fmt {needs : List Include} {param : S → String} {body : S → List Step}
    (hparam : param s = x.fmtParam) (hbody : body s = x.format) :
    (fmtEmitter needs param body).Adds s [] (x.around (HasHead.head s) .fmt) where
  memberDecls := rfl
  memberDefs := rfl
  decls := by rw [Filling.around, ← hparam]; exact mentions_fmtDecls _ _
  defs := by
    rw [Filling.around, ← hparam, ← hbody]; exact definitions_fmtDefs _ (hbody ▸ hx.format)
  memberDefsOnly := definesOnly_nil
  defsOnly := by
    have hblank : DefinesOnly [.blank] := Mute.definesOnly fun _ => rfl
    have hformat := definesOnly_define (formatFunction (HasHead.head s) (param s))
      (hbody ▸ hx.format : Mute (body s))
    have hstream := definesOnly_define (streamFunction (HasHead.head s) (param s)) (mute_line
      "return s << fmt::to_string(x);")
    exact ((hformat.append hblank).append hstream).inSpace _

end Additions

/-! ### Declarations and their definitions -/

/-- What a declaration and its definition have in common: the namespaces and the function. -/
def key (m : Mention) : List String × Function := (m.site.spaces, m.function)

/-- A name as it is qualified outside of a type. -/
def qualify (owner : Option String) (name : String) : String :=
  match owner with
  | some owner => owner ++ "::" ++ name
  | none => name

/-- How an addition is written where it is defined: under the name of the type that declares it, if one
does, and in any case under the template of the spec. That of a member stands in front of it, and a
function that is no member has it as its own. -/
structure IsQualified (h : Head) (a : Addition) : Prop where
  name : a.function.definition = a.function.signatureAs (qualify a.site.owner a.function.name)
  template : (a.defined h).heading ++ templateLines a.function.template false =
    templateLines h.params false
  member : a.function.scope ≠ none → (a.defined h).heading = templateLines h.params false

theorem isQualified_member {h : Head} {a : Addition} {owner : String} (hsite : a.site.owner = some owner)
    (hscope : a.function.scope = some owner) (htemplate : a.function.template = []) :
    IsQualified h a := by
  have hheading : (a.defined h).heading = templateLines h.params false := by
    rw [Addition.defined, hsite]; rfl
  refine ⟨by rw [Function.definition, hscope, hsite]; rfl, ?_, fun _ => hheading⟩
  rw [hheading, htemplate]
  exact List.append_nil _

theorem isQualified_free {h : Head} {a : Addition} (hsite : a.site.owner = none)
    (hscope : a.function.scope = none) (htemplate : a.function.template = h.params)
    (hplain : a.function.specifiers = "") : IsQualified h a := by
  refine ⟨?_, by rw [Addition.defined, hsite, htemplate]; rfl, fun hsome => absurd hscope hsome⟩
  rw [Function.definition, hscope, hsite, Function.declaration, hplain, String.empty_append]; rfl

theorem isQualified_around (x : Filling) (h : Head) (f : Feature) :
    ∀ a ∈ x.around h f, IsQualified h a := fun a ha => by
  cases f with
  | eq | ord => cases ha
  | hash | rapidcheck => cases List.mem_singleton.1 ha; exact isQualified_member rfl rfl rfl
  | json =>
    rcases List.mem_cons.1 ha with rfl | ha
    · exact isQualified_member rfl rfl rfl
    · cases List.mem_singleton.1 ha; exact isQualified_member rfl rfl rfl
  | fmt =>
    rcases List.mem_cons.1 ha with rfl | ha
    · exact isQualified_free rfl rfl rfl rfl
    · cases List.mem_singleton.1 ha; exact isQualified_free rfl rfl rfl rfl

/-! ### What an outline defines -/

section Outline

variable {S : Type} [HasHead S]

/-- The emitter of a feature, one without contributions for a feature that is not known. -/
def Registry.emitterOf (r : Registry S) (f : Feature) : Emitter S := (r.get? f).getD Emitter.nothing

theorem flatMap_enabled {β : Type} (r : Registry S) (s : S) {g : Emitter S → List β}
    (hg : g Emitter.nothing = []) :
    (r.enabled s).flatMap g = (HasHead.head s).features.toList.flatMap fun f => g (r.emitterOf f) := by
  rw [Registry.enabled]
  induction (HasHead.head s).features.toList with
  | nil => rfl
  | cons f fs ih =>
    rw [List.flatMap_cons, ← ih, List.filterMap_cons, Registry.emitterOf]
    cases r.get? f with
    | none => simp [hg]
    | some e => rfl

theorem unheaded_emitAll (r : Registry S) (slot : Slot) (s : S) : Unheaded (r.emitAll slot s) :=
  unheaded_flatMap (fun _ => unheaded_cons (fun _ _ => rfl) _) _

theorem definitionsOf_emitAll (r : Registry S) (slot : Slot) (s : S) (site : Site) :
    definitionsOf site [] (r.emitAll slot s) =
      (r.enabled s).flatMap fun e => definitionsOf site [] (e.contribution slot s) := by
  rw [Registry.emitAll, definitionsOf_flatMap fun _ => unheaded_cons (fun _ _ => rfl) _]
  induction r.enabled s with
  | nil => rfl
  | cons e es ih =>
    rw [List.flatMap_cons, ← ih, List.filterMap_cons, Emitter.contribution]
    cases e.emit slot <;> rfl

/-- What the features of a kind add to each spec. -/
def Registry.Adds (r : Registry S) (s : S) (members around : Feature → List Addition) : Prop :=
  ∀ f, (r.emitterOf f).Adds s (members f) (around f)

/-- What all features that a spec asks for add. -/
def additions (s : S) (added : Feature → List Addition) : List Addition :=
  (HasHead.head s).features.toList.flatMap added

variable {s : S} {members around : Feature → List Addition}

namespace Registry.Adds

variable {r : Registry S} (hr : r.Adds s members around)
include hr

theorem mentions_memberDecls : mentionsOf (within (HasHead.head s)) (r.emitAll .memberDecls s) =
    (additions s members).map Addition.declared := by
  rw [mentions_emitAll, flatMap_enabled r s rfl, additions, List.map_flatMap]
  exact List.flatMap_congr fun f _ => (hr f).memberDecls

theorem mentions_decls : mentionsOf Site.top (r.emitAll .decls s) =
    (additions s around).map Addition.declared := by
  rw [mentions_emitAll, flatMap_enabled r s rfl, additions, List.map_flatMap]
  exact List.flatMap_congr fun f _ => (hr f).decls

theorem definitions_memberDefs :
    definitionsOf (beside (HasHead.head s)) [] (r.emitAll .memberDefs s) =
      (additions s members).map (Addition.defined (HasHead.head s)) := by
  rw [definitionsOf_emitAll, flatMap_enabled r s rfl, additions, List.map_flatMap]
  exact List.flatMap_congr fun f _ => (hr f).memberDefs

theorem definitions_defs : definitionsOf Site.top [] (r.emitAll .defs s) =
    (additions s around).map (Addition.defined (HasHead.head s)) := by
  rw [definitionsOf_emitAll, flatMap_enabled r s rfl, additions, List.map_flatMap]
  exact List.flatMap_congr fun f _ => (hr f).defs

/-- Declarations define nothing. -/
theorem definitions_decls : definitionsOf Site.top [] (r.emitAll .decls s) = [] := by
  have hmap := map_mention_definitionsOf Site.top [] (r.emitAll .decls s)
  rw [hr.mentions_decls, List.filter_eq_nil_iff.2 fun m hm => by
    obtain ⟨a, -, rfl⟩ := List.mem_map.1 hm; simp [Addition.declared]] at hmap
  exact List.map_eq_nil_iff.1 hmap

theorem definesOnly_emitAll {slot : Slot} (hslot : slot = .memberDefs ∨ slot = .defs) :
    DefinesOnly (r.emitAll slot s) := fun site m hm => by
  rw [mentions_emitAll, flatMap_enabled r s rfl] at hm
  obtain ⟨f, -, hm⟩ := List.mem_flatMap.1 hm
  rcases hslot with rfl | rfl
  · exact (hr f).memberDefsOnly site m hm
  · exact (hr f).defsOnly site m hm

theorem mentions_memberDefs : mentionsOf (beside (HasHead.head s)) (r.emitAll .memberDefs s) =
    (additions s members).map fun a => (a.defined (HasHead.head s)).mention := by
  rw [(hr.definesOnly_emitAll (.inl rfl)).mentionsOf_eq, hr.definitions_memberDefs, List.map_map]
  rfl

theorem mentions_defs : mentionsOf Site.top (r.emitAll .defs s) =
    (additions s around).map fun a => (a.defined (HasHead.head s)).mention := by
  rw [(hr.definesOnly_emitAll (.inr rfl)).mentionsOf_eq, hr.definitions_defs, List.map_map]
  rfl

end Registry.Adds

namespace Renderer

variable {r : Renderer S} (hr : r.registry.Adds s members around)
include hr

theorem definitionsOf_definitions : definitionsOf Site.top [] (r.definitions s) =
    (if r.hasMembers s || r.registry.hasMemberDefs s then
      definitionsOf (beside (HasHead.head s)) [] (r.members s) ++
        (additions s members).map (Addition.defined (HasHead.head s))
      else []) ++ (additions s around).map (Addition.defined (HasHead.head s)) := by
  rw [Renderer.definitions, definitionsOf_append (unheaded_emitAll _ _ _), hr.definitions_defs]
  congr 1
  split
  · have hspace : Site.top.within (HasHead.head s).space = beside (HasHead.head s) := by
      simp [Site.within, Site.top, beside]
    simp only [definitionsOf, Step.definitions, hspace,
      definitionsOf_append (unheaded_emitAll _ _ _), hr.definitions_memberDefs]
    simp
  · rfl

omit hr in
theorem definitionsOf_typeSection (htype : Unheaded (r.type s)) (site : Site) :
    definitionsOf site [] (r.typeSection s) = definitionsOf site [] (r.type s) := by
  rw [Renderer.typeSection, definitionsOf_append htype, (mute_preamble _).definitionsOf_eq,
    List.nil_append]

theorem definitionsOf_header (htype : Unheaded (r.type s)) :
    definitionsOf Site.top [] (r.header s) =
      definitionsOf (beside (HasHead.head s)) [] (r.type s) ++
        (if (HasHead.head s).isGeneric then definitionsOf Site.top [] (r.definitions s) else []) := by
  have hspace : definitionsOf Site.top [] [.inSpace (HasHead.head s).space (r.typeSection s)] =
      definitionsOf (beside (HasHead.head s)) [] (r.type s) := by
    rw [← definitionsOf_typeSection htype]
    simp [Site.within, Site.top, beside]
  have hdefinitions : Unheaded (r.definitions s) := by
    refine Unheaded.append ?_ (unheaded_emitAll _ _ _)
    split
    · exact unheaded_cons (fun _ _ => rfl) _
    · exact unheaded_nil
  have hpost : Unheaded (if (HasHead.head s).postIncludes.isEmpty then []
      else [.blank, .includes (IncludeList.ofList (HasHead.head s).postIncludes)]) := by
    split
    · exact unheaded_nil
    · exact unheaded_cons (fun _ _ => rfl) _
  have hlast : Unheaded (if (HasHead.head s).isGeneric then r.definitions s else []) := by
    split
    · exact hdefinitions
    · exact unheaded_nil
  rw [Renderer.header, definitionsOf_append hlast, definitionsOf_append (unheaded_emitAll _ _ _),
    definitionsOf_append hpost, definitionsOf_append (unheaded_cons (fun _ _ => rfl) _), hspace,
    hr.definitions_decls, (mute_headerIncludes r s).definitionsOf_eq,
    (mute_postIncludes _).definitionsOf_eq, List.nil_append, List.append_nil, List.append_nil]
  split <;> rfl

theorem definesOnly_definitions (hmembers : DefinesOnly (r.members s)) :
    DefinesOnly (r.definitions s) := by
  refine DefinesOnly.append ?_ (hr.definesOnly_emitAll (.inr rfl))
  split
  · have hblank : DefinesOnly [.blank] := Mute.definesOnly fun _ => rfl
    exact hblank.append ((hmembers.append (hr.definesOnly_emitAll (.inl rfl))).inSpace _)
  · exact definesOnly_nil

/-- A header declares what its type declares and what is added around it. -/
theorem declarations_header (hmembers : DefinesOnly (r.members s)) :
    (mentionsOf Site.top (r.header s)).filter (!·.defines) =
      (mentionsOf (beside (HasHead.head s)) (r.type s)).filter (!·.defines) ++
        (additions s around).map Addition.declared := by
  have hlast : (if (HasHead.head s).isGeneric then mentionsOf Site.top (r.definitions s)
      else []).filter (!·.defines) = [] := by
    refine List.filter_eq_nil_iff.2 fun m hm => ?_
    split at hm
    · simp [definesOnly_definitions hr hmembers _ m hm]
    · cases hm
  have haround : ((additions s around).map Addition.declared).filter (!·.defines) =
      (additions s around).map Addition.declared :=
    List.filter_eq_self.2 fun m hm => by obtain ⟨a, -, rfl⟩ := List.mem_map.1 hm; rfl
  rw [mentions_header, List.filter_append, List.filter_append, hr.mentions_decls, hlast, haround,
    List.append_nil]
  rfl

omit hr in
theorem definitionsOf_source : definitionsOf Site.top [] (r.source s) =
    if (HasHead.head s).isGeneric then [] else definitionsOf Site.top [] (r.definitions s) := by
  rw [Renderer.source]
  split
  · rfl
  · rw [definitionsOf]; rfl

/-- One of the two files has all that is defined outside of the type, and the other none of it. -/
theorem filter_definitionsOf_files {p : Definition → Bool} (htype : Unheaded (r.type s))
    (hinside : (definitionsOf (beside (HasHead.head s)) [] (r.type s)).filter p = []) :
    (definitionsOf Site.top [] (r.header s) ++ definitionsOf Site.top [] (r.source s)).filter p =
      (definitionsOf Site.top [] (r.definitions s)).filter p := by
  rw [List.filter_append, definitionsOf_header hr htype, definitionsOf_source, List.filter_append,
    hinside, List.nil_append]
  split
  · rw [List.filter_nil, List.append_nil]
  · rfl

end Renderer

end Outline

end TypeGen.Render
