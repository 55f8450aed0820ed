import Mathlib.Data.List.Count
import Mathlib.Data.List.Induction
import TypeGen.Proofs.Spec.Features
import TypeGen.Render.Struct
import TypeGen.Render.Variant

/-!
Placing. Header and source are made of code that a kind brings along and of what features contribute.
The plan of a file says where each contribution stands, whatever is contributed: once, behind an empty
line, in the file and the order that the slot asks for.
-/

namespace TypeGen.Render

open TypeGen.Code TypeGen.Spec

/-! ### Plans -/

/-- A step that holds others, apart from what it holds. -/
inductive Frame where
  | semicolon
  | spaced
  | braces
  | parens
  | angles
  | block (header closing : String)
  | inSpace (name : Option String)
  | struct (name : String) (params : List String) (specialization : Bool)
  | switch (subject : String)
  | case (label : String) (leaves : Bool)
  | default (leaves : Bool)
  | define (f : Function)

def Frame.around : Frame → List Step → Step
  | .semicolon, body => .semicolon body
  | .spaced, body => .spaced body
  | .braces, body => .braces body
  | .parens, body => .parens body
  | .angles, body => .angles body
  | .block header closing, body => .block header closing body
  | .inSpace name, body => .inSpace name body
  | .struct name params specialization, body => .struct name params specialization body
  | .switch subject, body => .switch subject body
  | .case label leaves, body => .case label leaves body
  | .default leaves, body => .default leaves body
  | .define f, body => .define f body

/-- A piece of a file. -/
inductive Piece where
  /-- Code that no feature has a part in. -/
  | own (steps : List Step)
  /-- What a feature contributes to a slot. -/
  | contribution (slot : Slot) (f : Feature)
  | inside (frame : Frame) (pieces : List Piece)

/-- What features contribute to slots. -/
abbrev SlotContent := Slot → Feature → List Step

mutual

/-- A piece as steps, for given contributions. -/
def Piece.steps (content : SlotContent) : Piece → List Step
  | .own steps => steps
  | .contribution slot f => .blank :: content slot f
  | .inside frame pieces => [frame.around (stepsOfPieces content pieces)]

def stepsOfPieces (content : SlotContent) : List Piece → List Step
  | [] => []
  | p :: rest => p.steps content ++ stepsOfPieces content rest

end

mutual

/-- The contributions in a piece, from top to bottom. -/
def Piece.places : Piece → List (Slot × Feature)
  | .own _ => []
  | .contribution slot f => [(slot, f)]
  | .inside _ pieces => placesOf pieces

def placesOf : List Piece → List (Slot × Feature)
  | [] => []
  | p :: rest => p.places ++ placesOf rest

end

theorem stepsOfPieces_append (content : SlotContent) : ∀ ps qs : List Piece,
    stepsOfPieces content (ps ++ qs) = stepsOfPieces content ps ++ stepsOfPieces content qs
  | [], _ => rfl
  | p :: ps, qs => by
    rw [List.cons_append, stepsOfPieces, stepsOfPieces, stepsOfPieces_append content ps qs,
      List.append_assoc]

theorem placesOf_append : ∀ ps qs : List Piece, placesOf (ps ++ qs) = placesOf ps ++ placesOf qs
  | [], _ => rfl
  | p :: ps, qs => by
    rw [List.cons_append, placesOf, placesOf, placesOf_append ps qs, List.append_assoc]

/-- The contributions of some features to one slot. -/
def contributions (slot : Slot) (fs : List Feature) : List Piece := fs.map (.contribution slot)

theorem stepsOfPieces_contributions (content : SlotContent) (slot : Slot) : ∀ fs : List Feature,
    stepsOfPieces content (contributions slot fs) = fs.flatMap fun f => .blank :: content slot f
  | [] => rfl
  | f :: fs => by
    rw [contributions, List.map_cons, stepsOfPieces, ← contributions,
      stepsOfPieces_contributions content slot fs, List.flatMap_cons]; rfl

theorem placesOf_contributions (slot : Slot) : ∀ fs : List Feature,
    placesOf (contributions slot fs) = fs.map (slot, ·)
  | [] => rfl
  | f :: fs => by
    rw [contributions, List.map_cons, placesOf, ← contributions, placesOf_contributions slot fs]; rfl

/-! ### Surroundings -/

/-- Code with one place in it that is left open. -/
inductive Surrounding where
  | place
  | between (before : List Step) (inner : Surrounding) (after : List Step)
  | inside (frame : Frame) (inner : Surrounding)

namespace Surrounding

/-- Puts steps where the place is. -/
def fill : Surrounding → List Step → List Step
  | .place, steps => steps
  | .between before inner after, steps => before ++ inner.fill steps ++ after
  | .inside frame inner, steps => [frame.around (inner.fill steps)]

/-- The plan of the code with a plan where the place is. -/
def plan : Surrounding → List Piece → List Piece
  | .place, pieces => pieces
  | .between before inner after, pieces => .own before :: inner.plan pieces ++ [.own after]
  | .inside frame inner, pieces => [.inside frame (inner.plan pieces)]

theorem stepsOfPieces_plan (content : SlotContent) (pieces : List Piece) : ∀ c : Surrounding,
    stepsOfPieces content (c.plan pieces) = c.fill (stepsOfPieces content pieces)
  | .place => rfl
  | .between before inner after => by
    rw [plan, fill, stepsOfPieces_append, stepsOfPieces, stepsOfPieces_plan content pieces inner]
    simp [Piece.steps, stepsOfPieces]
  | .inside frame inner => by
    rw [plan, fill, stepsOfPieces, Piece.steps, stepsOfPieces_plan content pieces inner]; rfl

theorem placesOf_plan (pieces : List Piece) : ∀ c : Surrounding,
    placesOf (c.plan pieces) = placesOf pieces
  | .place => rfl
  | .between before inner after => by
    rw [plan, placesOf_append, placesOf, placesOf_plan pieces inner]; simp [Piece.places, placesOf]
  | .inside frame inner => by
    rw [plan, placesOf, Piece.places, placesOf_plan pieces inner]; simp [placesOf]

end Surrounding

/-! ### Registries -/

section Registries

variable {S : Type}

/-- What registrations, one after the other, make of an empty registry. -/
def Registry.ofList (registrations : List (Feature × Emitter S)) : Registry S :=
  registrations.foldl (fun r x => r.register x.1 x.2) Registry.empty

/-- The last registration of a feature is the one that counts. -/
theorem Registry.get?_ofList (registrations : List (Feature × Emitter S)) (f : Feature) :
    (Registry.ofList registrations).get? f =
      (registrations.reverse.find? (·.1 = f)).map (·.2) := by
  induction registrations using List.reverseRecOn with
  | nil => rfl
  | append_singleton xs x ih =>
    rw [Registry.ofList, List.foldl_append, ← Registry.ofList, List.reverse_append]
    show (if f = x.1 then some x.2 else (Registry.ofList xs).get? f) = _
    rw [List.reverse_singleton, List.singleton_append, List.find?_cons]
    by_cases h : x.1 = f
    · simp [h]
    · simp [h, Ne.symm h, ih]

/-- Whether a registry has something of a feature for a slot. -/
def Registry.offers (r : Registry S) (slot : Slot) (f : Feature) : Bool :=
  (r.get? f).any fun e => (e.emit slot).isSome

/-- What the features of a registry contribute for a spec. -/
def Registry.content (r : Registry S) (s : S) : SlotContent := fun slot f =>
  match (r.get? f).bind (·.emit slot) with
  | some emit => emit s
  | none => []

/-- The same features, includes and slots, with other contributions. -/
def Registry.contributing (r : Registry S) (content : S → SlotContent) : Registry S :=
  ⟨fun f => (r.get? f).map fun e =>
    { e with emit := fun slot => (e.emit slot).map fun _ s => content s slot f }⟩

theorem Registry.contributing_content (r : Registry S) : r.contributing r.content = r := by
  refine congrArg Registry.mk (funext fun f => ?_)
  cases hf : r.get? f with
  | none => rfl
  | some e =>
    refine congrArg some (congrArg (Emitter.mk e.headerIncludes e.sourceIncludes) (funext fun slot => ?_))
    cases hslot : e.emit slot with
    | none => rfl
    | some emit =>
      refine congrArg some (funext fun s => ?_)
      simp [content, hf, hslot]

variable [HasHead S]

/-- The features that are asked for and have something for a slot, in emission order. -/
def Registry.contributors (r : Registry S) (s : S) (slot : Slot) : List Feature :=
  Feature.all.filter fun f => (HasHead.head s).features.contains f && r.offers slot f

theorem Registry.emitAll_contributing (r : Registry S) (content : S → SlotContent) (slot : Slot)
    (s : S) : (r.contributing content).emitAll slot s =
      (r.contributors s slot).flatMap fun f => .blank :: content s slot f := by
  have hwalk : ∀ fs : List Feature,
      ((fs.filterMap (r.contributing content).get?).filterMap (·.emit slot)).flatMap
        (fun emit => Step.blank :: emit s) =
      (fs.filter (r.offers slot)).flatMap fun f => .blank :: content s slot f := fun fs => by
    induction fs with
    | nil => rfl
    | cons f fs ih =>
      cases hf : r.get? f with
      | none => simpa [contributing, offers, hf] using ih
      | some e =>
        cases hslot : e.emit slot with
        | none => simpa [contributing, offers, hf, hslot] using ih
        | some emit => simpa [contributing, offers, hf, hslot] using ih
  rw [Registry.emitAll, enabled, hwalk, contributors, FeatureSet.toList_eq_filter, List.filter_filter]
  exact congrArg (List.flatMap _) (List.filter_congr fun f _ => Bool.and_comm _ _)

theorem Registry.map_enabled_contributing {β : Type} (r : Registry S) (content : S → SlotContent)
    (s : S) {g : Emitter S → β}
    (hg : ∀ e emit, (∀ slot, (emit slot).isSome = (e.emit slot).isSome) → g { e with emit } = g e) :
    ((r.contributing content).enabled s).map g = (r.enabled s).map g := by
  rw [enabled, enabled, List.map_filterMap, List.map_filterMap]
  refine List.filterMap_congr fun f _ => ?_
  rw [contributing, Option.map_map]
  exact congrArg (Option.map · _) (funext fun e => hg e _ fun slot => Option.isSome_map)

/-! ### Files -/

/-- How specs of one kind are written, apart from their features: the type leaves a place for what they
declare in it. -/
structure Ground (S : Type) where
  intrinsic : S → List Include
  type : S → Surrounding
  hasMembers : S → Bool
  members : S → List Step

namespace Ground

variable (k : Ground S) (r : Registry S) (s : S)

def renderer : Renderer S where
  registry := r
  intrinsic := k.intrinsic
  type s := (k.type s).fill (r.emitAll .memberDecls s)
  hasMembers := k.hasMembers
  members := k.members

def definitionPieces : List Piece :=
  (if k.hasMembers s || r.hasMemberDefs s then
    [.own [.blank], .inside (.inSpace (HasHead.head s).space)
      (.own (k.members s) :: contributions .memberDefs (r.contributors s .memberDefs))]
  else []) ++ contributions .defs (r.contributors s .defs)

def headerPieces : List Piece :=
  let h := HasHead.head s
  let includes := (k.renderer r).headerIncludes s
  [.own (if includes.isEmpty then [] else [.spaced [.includes includes]]),
    .inside (.inSpace h.space)
      (.own ((if h.forwards.isEmpty then []
          else [.spaced (h.forwards.map fun d => .semicolon [.text (bareDeclaration d)])]) ++
          h.doc.toList.map Step.doc) ::
        (k.type s).plan (contributions .memberDecls (r.contributors s .memberDecls))),
    .own (if h.postIncludes.isEmpty then []
      else [.blank, .includes (IncludeList.ofList h.postIncludes)])] ++
  contributions .decls (r.contributors s .decls) ++
  (if h.isGeneric then k.definitionPieces r s else [])

def sourcePieces : List Piece :=
  if (HasHead.head s).isGeneric then []
  else .own [.includes ((k.renderer r).sourceIncludes s)] :: k.definitionPieces r s

variable (content : S → SlotContent)

/-! What is contributed changes neither the includes nor the outline. -/

theorem hasMemberDefs_contributing :
    (r.contributing content).hasMemberDefs s = r.hasMemberDefs s := by
  have hmap := r.map_enabled_contributing content s (g := fun e => (e.emit .memberDefs).isSome)
    fun e emit h => h .memberDefs
  have hany := congrArg (List.any · id) hmap
  rwa [List.any_map, List.any_map] at hany

theorem sourceIncludes_contributing :
    (k.renderer (r.contributing content)).sourceIncludes s = (k.renderer r).sourceIncludes s := by
  have hfeatures : (r.contributing content).sourceIncludes s = r.sourceIncludes s := by
    rw [Registry.sourceIncludes, Registry.sourceIncludes, List.flatMap_def, List.flatMap_def,
      r.map_enabled_contributing content s fun _ _ _ => rfl]
  exact congrArg _ hfeatures

theorem headerIncludes_contributing :
    (k.renderer (r.contributing content)).headerIncludes s = (k.renderer r).headerIncludes s := by
  have hfeatures : (r.contributing content).headerIncludes s = r.headerIncludes s := by
    rw [Registry.headerIncludes, Registry.headerIncludes, List.flatMap_def, List.flatMap_def,
      r.map_enabled_contributing content s fun _ _ _ => rfl]
  rw [Renderer.headerIncludes, Renderer.headerIncludes, sourceIncludes_contributing]
  show (if _ then (IncludeList.extend _ ((r.contributing content).headerIncludes s)).merge _
    else IncludeList.extend _ ((r.contributing content).headerIncludes s)) = _
  rw [hfeatures]; rfl

theorem stepsOfPieces_contributors (slot : Slot) :
    stepsOfPieces (content s) (contributions slot (r.contributors s slot)) =
      (r.contributing content).emitAll slot s := by
  rw [stepsOfPieces_contributions, Registry.emitAll_contributing]

theorem definitions_contributing : (k.renderer (r.contributing content)).definitions s =
    stepsOfPieces (content s) (k.definitionPieces r s) := by
  rw [definitionPieces, stepsOfPieces_append, stepsOfPieces_contributors, Renderer.definitions]
  show (if k.hasMembers s || (r.contributing content).hasMemberDefs s then _ else _) ++ _ = _
  rw [hasMemberDefs_contributing]
  refine congrArg (· ++ _) ?_
  split
  · simp [stepsOfPieces, Piece.steps, Frame.around, stepsOfPieces_contributors, renderer]
  · rfl

theorem header_contributing : (k.renderer (r.contributing content)).header s =
    stepsOfPieces (content s) (k.headerPieces r s) := by
  rw [headerPieces, Renderer.header, headerIncludes_contributing, definitions_contributing]
  simp only [stepsOfPieces_append, stepsOfPieces_contributors, stepsOfPieces, Piece.steps,
    Surrounding.stepsOfPieces_plan, Frame.around, List.append_nil, Renderer.typeSection]
  rw [apply_ite (stepsOfPieces (content s))]
  simp [renderer, stepsOfPieces]

theorem source_contributing : (k.renderer (r.contributing content)).source s =
    stepsOfPieces (content s) (k.sourcePieces r s) := by
  rw [sourcePieces, Renderer.source, sourceIncludes_contributing, definitions_contributing]
  split
  · rfl
  · rw [stepsOfPieces, Piece.steps]; rfl

/-! ### Where features contribute -/

theorem mem_contributors {slot : Slot} {f : Feature} : f ∈ r.contributors s slot ↔
    f ∈ (HasHead.head s).features.toList ∧ r.offers slot f = true := by
  simp [Registry.contributors, Feature.mem_all, FeatureSet.contains]

/-- Where no feature that is asked for defines members, none has anything for their definitions. -/
theorem contributors_memberDefs_eq_nil (h : r.hasMemberDefs s = false) :
    r.contributors s .memberDefs = [] := by
  refine List.eq_nil_iff_forall_not_mem.2 fun f hf => ?_
  obtain ⟨hasked, hoffers⟩ := (mem_contributors r s).1 hf
  obtain ⟨e, he, hemit⟩ := (Option.any_eq_true _ _).1 hoffers
  have hmember : e ∈ r.enabled s := List.mem_filterMap.2 ⟨f, hasked, he⟩
  rw [Registry.hasMemberDefs, List.any_eq_false] at h
  exact h e hmember hemit

theorem placesOf_definitionPieces : placesOf (k.definitionPieces r s) =
    (r.contributors s .memberDefs).map (.memberDefs, ·) ++ (r.contributors s .defs).map (.defs, ·) := by
  rw [definitionPieces, placesOf_append, placesOf_contributions]
  refine congrArg (· ++ _) ?_
  split
  · simp [placesOf, Piece.places, placesOf_contributions]
  next h =>
    have hnone : r.hasMemberDefs s = false := by simpa using (not_or.1 (mt Bool.or_eq_true_iff.2 h)).2
    rw [contributors_memberDefs_eq_nil r s hnone]; rfl

theorem placesOf_headerPieces : placesOf (k.headerPieces r s) =
    (r.contributors s .memberDecls).map (.memberDecls, ·) ++
      (r.contributors s .decls).map (.decls, ·) ++
      if (HasHead.head s).isGeneric then
        (r.contributors s .memberDefs).map (.memberDefs, ·) ++
          (r.contributors s .defs).map (.defs, ·)
      else [] := by
  rw [headerPieces]
  simp only [placesOf_append, placesOf_contributions, placesOf, Piece.places,
    Surrounding.placesOf_plan, List.nil_append, List.append_nil]
  rw [apply_ite placesOf, placesOf_definitionPieces]; rfl

theorem placesOf_sourcePieces : placesOf (k.sourcePieces r s) =
    if (HasHead.head s).isGeneric then []
    else (r.contributors s .memberDefs).map (.memberDefs, ·) ++
      (r.contributors s .defs).map (.defs, ·) := by
  rw [sourcePieces]
  split
  · rfl
  · rw [placesOf, placesOf_definitionPieces]; rfl

theorem count_map_slot (fs : List Feature) (slot slot' : Slot) (f : Feature) :
    (fs.map (slot', ·)).count (slot, f) = if slot' = slot then fs.count f else 0 := by
  split
  next h =>
    subst h
    exact List.count_map_of_injective fs _ (fun _ _ h => (Prod.mk.inj h).2) f
  next h =>
    refine List.count_eq_zero_of_not_mem fun hmem => h ?_
    obtain ⟨g, -, heq⟩ := List.mem_map.1 hmem
    exact (Prod.mk.inj heq).1

/-- Every contribution stands in one of the two files, and once. -/
theorem count_places (slot : Slot) (f : Feature) :
    (placesOf (k.headerPieces r s) ++ placesOf (k.sourcePieces r s)).count (slot, f) =
      if f ∈ r.contributors s slot then 1 else 0 := by
  have hcount : (r.contributors s slot).count f = if f ∈ r.contributors s slot then 1 else 0 :=
    (isOrdered_filter_all _).nodup.count
  rw [← hcount, List.count_append, placesOf_headerPieces, placesOf_sourcePieces]
  cases (HasHead.head s).isGeneric <;> cases slot <;> simp [List.count_append, count_map_slot]

end Ground

/-- A blank line is empty, and the next character begins a line. -/
theorem run_blank (p : Page) : Step.blank.run p =
    (⟨p.indent, p.level, p.text ++ (if p.atLineStart then "\n" else "\n\n"), true⟩, .done) := by
  have hpush : ∀ t : String, t.push '\n' = t ++ "\n" := fun t => by simp [← String.toList_inj]
  cases hstart : p.atLineStart
  all_goals simp [Step.run, Step.strokes, runAll, Stroke.run, Page.freshLine, Page.newline, Page.put,
    hstart, hpush, String.append_assoc]

/-- What the features of a registry contribute stands where their slots ask for it, whatever it is: the
declarations in the header, the definitions in the source or, for a generic type, in the header as
well. In each slot the features that are asked for follow each other in emission order, each behind an
empty line, and of the registrations of a feature the last one counts. -/
theorem contributions_placed (k : Ground S) (registrations : List (Feature × Emitter S)) (s : S) :
    let r := Registry.ofList registrations
    (∀ content : S → SlotContent,
      (k.renderer (r.contributing content)).header s =
        stepsOfPieces (content s) (k.headerPieces r s) ∧
      (k.renderer (r.contributing content)).source s =
        stepsOfPieces (content s) (k.sourcePieces r s)) ∧
    r.contributing r.content = r ∧
    placesOf (k.headerPieces r s) =
      (r.contributors s .memberDecls).map (.memberDecls, ·) ++
        (r.contributors s .decls).map (.decls, ·) ++
        (if (HasHead.head s).isGeneric then
          (r.contributors s .memberDefs).map (.memberDefs, ·) ++
            (r.contributors s .defs).map (.defs, ·)
        else []) ∧
    placesOf (k.sourcePieces r s) =
      (if (HasHead.head s).isGeneric then []
      else (r.contributors s .memberDefs).map (.memberDefs, ·) ++
        (r.contributors s .defs).map (.defs, ·)) ∧
    ((HasHead.head s).isGeneric = true → (k.renderer r).source s = []) ∧
    (∀ slot f, (placesOf (k.headerPieces r s) ++ placesOf (k.sourcePieces r s)).count (slot, f) =
      if f ∈ (HasHead.head s).features.toList ∧
          (registrations.reverse.find? (·.1 = f)).any (fun x => (x.2.emit slot).isSome)
        then 1 else 0) ∧
    (∀ declared, (HasHead.head s).features = FeatureSet.ofList declared →
      ∀ slot, r.contributors s slot =
        Feature.all.filter fun f => declared.contains f && r.offers slot f) ∧
    ∀ p : Page, Step.blank.run p =
      (⟨p.indent, p.level, p.text ++ (if p.atLineStart then "\n" else "\n\n"), true⟩, .done) := by
  intro r
  have hoffers : ∀ slot f, r.offers slot f =
      (registrations.reverse.find? (·.1 = f)).any (fun x => (x.2.emit slot).isSome) :=
    fun slot f => by
      rw [Registry.offers, Registry.get?_ofList, Option.any_map]
  refine ⟨fun content => ⟨k.header_contributing r s content, k.source_contributing r s content⟩,
    r.contributing_content, k.placesOf_headerPieces r s, k.placesOf_sourcePieces r s,
    fun hgeneric => if_pos hgeneric, fun slot f => ?_, fun declared hdeclared slot => ?_, run_blank⟩
  · simp only [Ground.count_places, Ground.mem_contributors, hoffers]
  · refine List.filter_congr fun f _ => congrArg (· && _) ?_
    rw [hdeclared, FeatureSet.contains, Bool.eq_iff_iff, List.contains_iff_mem,
      List.contains_iff_mem, FeatureSet.mem_ofList]

end Registries

/-! ### Structs and variants -/

namespace StructSpec

def ground : Ground StructSpec where
  intrinsic := renderer.intrinsic
  type s := .inside (.struct s.name s.params false)
    (.between
      (if s.fields.isEmpty then []
        else [.line (s.name ++ "() = delete;"), .declare (constructor s)])
      .place
      ((if s.fields.isEmpty then [] else [.blank]) ++ s.fields.flatMap (fieldSteps s) ++
        (if s.hasIndirect then privateSteps s else [])))
  hasMembers := renderer.hasMembers
  members := renderer.members

theorem renderer_eq : renderer = ground.renderer registry := by
  have htype : typeSteps registry = (ground.renderer registry).type := funext fun s => by
    simp [typeSteps, Ground.renderer, ground, Surrounding.fill, Frame.around]
  rw [renderer, htype]; rfl

end StructSpec

namespace VariantSpec

def ground : Ground VariantSpec where
  intrinsic := renderer.intrinsic
  type s := .inside (.struct s.name s.params false)
    (.between
      ([.line (s.name ++ "() = delete;")] ++ (s.arms.map fun a => .declare (constructor s a)) ++
        [.blank] ++ traitSteps s ++
        [.blank, visitStep s true, .blank, visitStep s false,
          .blank, hasStep s, .blank, getStep s true, .blank, getStep s false, .blank, indexStep])
      .place
      (keyDecls s ++ [.blank, .line (rawType s ++ " raw_variant;")]))
  hasMembers := renderer.hasMembers
  members := renderer.members

theorem renderer_eq : renderer = ground.renderer registry := by
  have htype : typeSteps registry = (ground.renderer registry).type := funext fun s => by
    simp [typeSteps, Ground.renderer, ground, Surrounding.fill, Frame.around]
  rw [renderer, htype]; rfl

end VariantSpec

end TypeGen.Render
