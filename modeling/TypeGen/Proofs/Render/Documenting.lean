import TypeGen.Proofs.Render.Directives
import TypeGen.Proofs.Render.Wording

/-!
Documenting. What a spec says in comments is seen in two places, ahead of its type and ahead of the fields
of a struct. Everything else is written from the rest of the spec: a spec without its comments has the
same includes, declarations and definitions.
-/

namespace TypeGen

open TypeGen.Code TypeGen.Spec TypeGen.Text TypeGen.Render

/-! ### Specs without comments -/

def Spec.Head.undocumented (h : Head) : Head := { h with doc := none }

def Spec.StructField.undocumented (f : StructField) : StructField := { f with doc := none }

def Spec.StructSpec.undocumented (s : StructSpec) : StructSpec :=
  { s with doc := none, fields := s.fields.map (·.undocumented) }

def Spec.EnumSpec.undocumented (s : EnumSpec) : EnumSpec := { s with doc := none }

def Spec.VariantSpec.undocumented (s : VariantSpec) : VariantSpec := { s with doc := none }

/-- A spec of the same kind that says nothing in comments. -/
def Spec.undocumented : Spec → Spec
  | .struct s => .struct s.undocumented
  | .enum s => .enum s.undocumented
  | .variant s => .variant s.undocumented

/-- What is said in code is the same. -/
theorem Spec.fragments_undocumented (s : Spec) : s.undocumented.fragments = s.fragments := by
  cases s with
  | struct s =>
    show s.undocumented.fragments = s.fragments
    rw [Spec.StructSpec.fragments, Spec.StructSpec.fragments, Spec.StructSpec.undocumented,
      List.flatMap_map]
    rfl
  | enum s => rfl
  | variant s => rfl

namespace Render

/-! ### What does not depend on comments -/

section Outline

variable {S : Type} [HasHead S]

/-- The second spec is the first one without its comments, and apart from the type nothing of it is
written in another way. -/
structure Renderer.Agrees (r : Renderer S) (s s' : S) : Prop where
  head : HasHead.head s' = (HasHead.head s).undocumented
  intrinsic : r.intrinsic s' = r.intrinsic s
  hasMembers : r.hasMembers s' = r.hasMembers s
  members : r.members s' = r.members s
  emit : ∀ f e slot emit, r.registry.get? f = some e → e.emit slot = some emit → emit s' = emit s

namespace Renderer.Agrees

variable {r : Renderer S} {s s' : S} (hr : r.Agrees s s')
include hr

theorem enabled : r.registry.enabled s' = r.registry.enabled s := by
  rw [Registry.enabled, hr.head]
  rfl

theorem emitAll (slot : Slot) : r.registry.emitAll slot s' = r.registry.emitAll slot s := by
  rw [Registry.emitAll, Registry.emitAll, hr.enabled]
  refine List.flatMap_congr fun emit hemit => ?_
  obtain ⟨e, he, hslot⟩ := List.mem_filterMap.1 hemit
  obtain ⟨f, -, hf⟩ := List.mem_filterMap.1 he
  rw [hr.emit f e slot emit hf hslot]

theorem definitions : r.definitions s' = r.definitions s := by
  rw [Renderer.definitions, Renderer.definitions, hr.hasMembers, hr.members, hr.emitAll, hr.emitAll,
    Registry.hasMemberDefs, Registry.hasMemberDefs, hr.enabled, hr.head]
  rfl

theorem sourceIncludes : r.sourceIncludes s' = r.sourceIncludes s := by
  rw [Renderer.sourceIncludes, Renderer.sourceIncludes, Registry.sourceIncludes,
    Registry.sourceIncludes, hr.enabled, hr.head]
  rfl

theorem includeBlock : r.includeBlock s' = r.includeBlock s := by
  have hincludes : r.headerIncludes s' = r.headerIncludes s := by
    rw [Renderer.headerIncludes, Renderer.headerIncludes, Registry.headerIncludes,
      Registry.headerIncludes, hr.sourceIncludes, hr.intrinsic, hr.enabled, hr.head]
    rfl
  rw [Renderer.includeBlock, Renderer.includeBlock, hincludes]

theorem trailer : r.trailer s' = r.trailer s := by
  rw [Renderer.trailer, Renderer.trailer, hr.emitAll, hr.definitions, hr.head]
  rfl

theorem source : r.source s' = r.source s := by
  rw [Renderer.source, Renderer.source, hr.sourceIncludes, hr.definitions, hr.head]
  rfl

end Renderer.Agrees

end Outline

/-! ### Structs -/

namespace StructSpec

variable (s : StructSpec)

theorem map_undocumented {β : Type} {g : StructField → β} (hg : ∀ f, g f.undocumented = g f) :
    s.undocumented.fields.map g = s.fields.map g := by
  rw [StructSpec.undocumented, List.map_map]
  exact List.map_congr_left fun f _ => hg f

theorem indirect_undocumented : s.undocumented.fields.filter (·.indirect) =
    (s.fields.filter (·.indirect)).map (·.undocumented) := List.filter_map

theorem hasIndirect_undocumented : s.undocumented.hasIndirect = s.hasIndirect := List.any_map

theorem constructor_undocumented : constructor s.undocumented = constructor s := by
  rw [constructor, constructor, map_undocumented s fun _ => rfl, map_undocumented s fun _ => rfl]
  rfl

theorem privateSteps_undocumented : privateSteps s.undocumented = privateSteps s := by
  rw [privateSteps, privateSteps, indirect_undocumented, List.map_map]
  rfl

theorem memberSteps_undocumented : memberSteps s.undocumented = memberSteps s := by
  rw [memberSteps, memberSteps, indirect_undocumented, List.flatMap_map, constructor_undocumented]
  rfl

theorem tie_undocumented (object : String) : tie s.undocumented object = tie s object := by
  rw [tie, tie, map_undocumented s fun _ => rfl]

theorem comparisonBody_undocumented : comparisonBody s.undocumented = comparisonBody s := by
  funext op
  rw [comparisonBody, comparisonBody, tie_undocumented, tie_undocumented]

theorem hashBody_undocumented : hashBody s.undocumented = hashBody s := by
  rw [hashBody, hashBody, map_undocumented s fun _ => rfl]

theorem readBody_undocumented : readBody s.undocumented = readBody s := by
  rw [readBody, readBody, map_undocumented s fun _ => rfl]
  rfl

theorem writeBody_undocumented : writeBody s.undocumented = writeBody s := by
  rw [writeBody, writeBody, written, written, map_undocumented s fun _ => rfl]
  rfl

theorem generator_undocumented : generator s.undocumented = generator s := by
  unfold generator
  rw [map_undocumented s fun _ => rfl]
  rfl

theorem fmtBody_undocumented : fmtBody s.undocumented = fmtBody s := by
  rw [fmtBody, fmtBody, map_undocumented s fun _ => rfl]
  rfl

theorem agrees : renderer.Agrees s s.undocumented where
  head := rfl
  intrinsic := by
    show (if s.undocumented.hasIndirect then _ else _) = if s.hasIndirect then _ else _
    rw [hasIndirect_undocumented]
  hasMembers := by
    show (!s.undocumented.fields.isEmpty) = !s.fields.isEmpty
    rw [StructSpec.undocumented, List.isEmpty_map]
  members := memberSteps_undocumented s
  emit f e slot emit he hslot := by
    have hcomparison := comparisonBody_undocumented s
    cases f with
    | eq | ord =>
      cases he
      cases slot with
      | memberDecls => cases hslot; rfl
      | memberDefs =>
        cases hslot
        show comparisonDefs _ _ (comparisonBody s.undocumented) = _
        rw [hcomparison]
        rfl
      | decls | defs => cases hslot
    | hash =>
      cases he
      cases slot with
      | decls => cases hslot; rfl
      | defs =>
        cases hslot
        show hashDefs _ _ (hashBody s.undocumented) = _
        rw [hashBody_undocumented]
        rfl
      | memberDecls | memberDefs => cases hslot
    | json =>
      cases he
      cases slot with
      | decls => cases hslot; rfl
      | defs =>
        cases hslot
        show jsonDefs _ _ (readBody s.undocumented) (writeBody s.undocumented) = _
        rw [readBody_undocumented, writeBody_undocumented]
        rfl
      | memberDecls | memberDefs => cases hslot
    | rapidcheck =>
      cases he
      cases slot with
      | decls => cases hslot; rfl
      | defs =>
        cases hslot
        show arbitraryDefs _ (generator s.undocumented) = _
        rw [generator_undocumented]
        rfl
      | memberDecls | memberDefs => cases hslot
    | fmt =>
      cases he
      cases slot with
      | decls => cases hslot; rfl
      | defs =>
        cases hslot
        show fmtDefs _ _ (fmtBody s.undocumented) = _
        rw [fmtBody_undocumented]
        rfl
      | memberDecls | memberDefs => cases hslot

end StructSpec

/-! ### Enums and variants -/

theorem EnumSpec.agrees (s : EnumSpec) : EnumSpec.renderer.Agrees s s.undocumented where
  head := rfl
  intrinsic := rfl
  hasMembers := rfl
  members := rfl
  emit f e slot emit he hslot := by cases f <;> cases he <;> cases slot <;> cases hslot <;> rfl

theorem VariantSpec.agrees (s : VariantSpec) : VariantSpec.renderer.Agrees s s.undocumented where
  head := rfl
  intrinsic := rfl
  hasMembers := rfl
  members := rfl
  emit f e slot emit he hslot := by cases f <;> cases he <;> cases slot <;> cases hslot <;> rfl

/-- Nothing that is said in comments is in the source. -/
theorem sourceCode_undocumented (s : Spec) : sourceCode s.undocumented = sourceCode s := by
  cases s with
  | struct s => exact congrArg renderSteps (StructSpec.agrees s).source
  | enum s => exact congrArg renderSteps (EnumSpec.agrees s).source
  | variant s => exact congrArg renderSteps (VariantSpec.agrees s).source

end Render

end TypeGen
