import TypeGen.Proofs.Code.Nesting
import TypeGen.Proofs.Code.Writing
import TypeGen.Proofs.Spec.Features
import TypeGen.Proofs.Spec.Occurrences
import TypeGen.Render.Outline

/-!
Directives. What header and source include is merged from several lists, of which any two may overlap.
Each file starts with the first occurrences, and the file that holds the definitions includes all that
they need.
-/

namespace TypeGen.Code

open TypeGen.Spec

/-! ### Directives on a page -/

/-- Directives, one a line. -/
def directiveLines (is : List Include) : String := String.join (is.map fun i => i.directive ++ "\n")

/-- Where nothing is indented, lines are written as they are. -/
theorem runAll_lines_of_level : ∀ (ss : List String) {p : Page}, p.level = 0 → p.atLineStart = true →
    runAll (strokesOfLines ss) p =
      (⟨p.indent, 0, p.text ++ String.join (ss.map (· ++ "\n")), true⟩, .done)
  | [], p, hlevel, hstart => by simp [strokesOfLines, runAll, ← hlevel, ← hstart]
  | s :: ss, p, hlevel, hstart => by
    have hwritten : (p.write s).level = 0 := by rw [level_write, hlevel]
    have hline : runAll (strokesOfLine s) p = (⟨p.indent, 0, (p.text ++ s).push '\n', true⟩, .done) := by
      show ((p.write s).put '\n', Ending.done) = _
      rw [put_of_level hwritten, text_write_of_level hlevel, indent_write]; rfl
    have hpush : (p.text ++ s).push '\n' ++ String.join (ss.map (· ++ "\n")) =
        p.text ++ String.join ((s :: ss).map (· ++ "\n")) := by
      simp [← String.toList_inj]
    have hrest : runAll (strokesOfLines ss) ⟨p.indent, 0, (p.text ++ s).push '\n', true⟩ = _ :=
      runAll_lines_of_level ss rfl rfl
    rw [strokesOfLines, List.flatMap_cons, runAll_append hline, ← strokesOfLines, hrest, hpush]

theorem runAll_includes (l : IncludeList) (i : Indent) :
    runAll (Step.includes l).strokes (Page.blank i) = (⟨i, 0, directiveLines l.toList, true⟩, .done) := by
  rw [Step.strokes, runAll_lines_of_level _ rfl rfl, IncludeList.directives, List.map_map]
  simp [Page.blank, directiveLines, Function.comp_def]

theorem runSteps_spaced_includes (l : IncludeList) (i : Indent) :
    runSteps [.spaced [.includes l]] (Page.blank i) =
      (⟨i, 0, directiveLines l.toList ++ "\n", true⟩, .done) := by
  have hbody : runAll (strokesOf [.includes l]) (Page.blank i) =
      (⟨i, 0, directiveLines l.toList, true⟩, .done) := by
    rw [strokesOf, strokesOf, List.append_nil, runAll_includes]
  show runAll [.scope .lines "" "\n" (strokesOf [.includes l])] (Page.blank i) = _
  simp only [runAll, Stroke.run]
  rw [show Setting.lines.enter "" (Page.blank i) = Page.blank i from rfl, hbody]
  rfl

/-- What is carried out first is what the text starts with. -/
theorem exists_text_of_append {xs ys : List Step} {p q : Page} (h : runSteps xs p = (q, .done)) :
    ∃ rest, (runSteps (xs ++ ys) p).1.text = q.text ++ rest := by
  rw [runSteps, strokesOf_append, runAll_append h]
  exact exists_text_runAll _ q

end TypeGen.Code

namespace TypeGen.Render

open TypeGen.Code TypeGen.Spec

variable {S : Type} [HasHead S]

/-! ### What is needed -/

/-- Includes of the features that a spec asks for, as far as the registry knows them, in emission
order. -/
def Registry.needs (r : Registry S) (s : S) (includes : Emitter S → List Include) : List Include :=
  Feature.all.flatMap fun f =>
    if (HasHead.head s).features.contains f then ((r.get? f).map includes).getD [] else []

theorem Registry.flatMap_includes (r : Registry S) (s : S) (includes : Emitter S → List Include) :
    (r.enabled s).flatMap includes = r.needs s includes := by
  rw [enabled, FeatureSet.toList_eq_filter, needs]
  induction Feature.all with
  | nil => rfl
  | cons f fs ih =>
    rw [List.flatMap_cons, ← ih]
    cases hf : (HasHead.head s).features.contains f <;> cases hr : r.get? f <;> simp [hf, hr]

namespace Renderer

variable (r : Renderer S) (s : S)

/-- Includes that the definitions need, with repetitions. -/
def definitionNeeds : List Include :=
  (HasHead.head s).sourceIncludes ++ r.registry.needs s (·.sourceIncludes)

/-- Includes that the header needs, with repetitions: what is declared, what the kind needs, what the
features need, and for a generic type all that its definitions need. -/
def headerNeeds : List Include :=
  (HasHead.head s).includes ++ r.intrinsic s ++ r.registry.needs s (·.headerIncludes) ++
    (if (HasHead.head s).isGeneric then (r.definitionNeeds s).eraseDups else [])

theorem toList_sourceIncludes : (r.sourceIncludes s).toList = (r.definitionNeeds s).eraseDups := by
  rw [sourceIncludes, IncludeList.ofList, IncludeList.extend_extend, definitionNeeds,
    ← Registry.flatMap_includes]
  exact IncludeList.toList_ofList _

theorem toList_headerIncludes : (r.headerIncludes s).toList = (r.headerNeeds s).eraseDups := by
  have hown : ((IncludeList.ofList (HasHead.head s).includes).extend (r.intrinsic s)).extend
      (r.registry.headerIncludes s) = IncludeList.ofList ((HasHead.head s).includes ++ r.intrinsic s ++
        r.registry.needs s (·.headerIncludes)) := by
    rw [IncludeList.ofList, IncludeList.extend_extend, IncludeList.extend_extend,
      ← Registry.flatMap_includes, ← List.append_assoc]
    rfl
  rw [headerIncludes, hown, headerNeeds]
  split
  · rw [IncludeList.merge, toList_sourceIncludes, IncludeList.ofList, IncludeList.extend_extend]
    exact IncludeList.toList_ofList _
  · rw [List.append_nil, IncludeList.toList_ofList]

/-- Directives differ when includes do. -/
theorem nodup_directives (l : IncludeList) : l.directives.Nodup :=
  l.nodup.map fun _ _ => Include.directive_injective

/-! ### Where files start -/

/-- Definitions stand behind an empty line. -/
theorem definitions_eq : r.definitions s = [] ∨ ∃ more, r.definitions s = .blank :: more := by
  rw [definitions]
  split
  · exact .inr ⟨_, rfl⟩
  · rw [List.nil_append, Registry.emitAll]
    cases (r.registry.enabled s).filterMap (·.emit .defs) with
    | nil => exact .inl rfl
    | cons emit _ => exact .inr ⟨_, rfl⟩

/-- What a header starts with. -/
def includeBlock : List Step :=
  if (r.headerIncludes s).isEmpty then [] else [.spaced [.includes (r.headerIncludes s)]]

theorem runSteps_includeBlock (i : Indent) : runSteps (r.includeBlock s) (Page.blank i) =
    (⟨i, 0, directiveLines (r.headerIncludes s).toList ++
      (if (r.headerIncludes s).isEmpty then "" else "\n"), true⟩, .done) := by
  rw [includeBlock]
  split
  next h => rw [List.isEmpty_iff.1 h]; rfl
  next => exact runSteps_spaced_includes _ _

theorem text_header : ∃ rest, renderSteps (r.header s) =
    directiveLines (r.headerIncludes s).toList ++
      (if (r.headerIncludes s).isEmpty then "" else "\n") ++ rest := by
  rw [renderSteps, header, List.append_assoc, List.append_assoc, List.append_assoc]
  exact exists_text_of_append (r.runSteps_includeBlock s _)

theorem text_source (h : (HasHead.head s).isGeneric = false) : ∃ rest, renderSteps (r.source s) =
    directiveLines (r.sourceIncludes s).toList ++ rest ∧ (rest = "" ∨ ∃ more, rest = "\n" ++ more) := by
  rw [renderSteps, source, h]
  have hblock := runAll_includes (r.sourceIncludes s) Indent.default
  rcases r.definitions_eq s with hnone | ⟨more, hmore⟩
  · refine ⟨"", ?_, .inl rfl⟩
    rw [hnone, String.append_empty]
    simp [runSteps, strokesOf, hblock]
  · have hline : runSteps [.includes (r.sourceIncludes s), .blank] (Page.blank Indent.default) =
        (⟨Indent.default, 0, directiveLines (r.sourceIncludes s).toList ++ "\n", true⟩, .done) := by
      rw [runSteps, strokesOf, runAll_append hblock]; rfl
    obtain ⟨rest, hrest⟩ : ∃ rest, (runSteps ([.includes (r.sourceIncludes s), .blank] ++ more)
        (Page.blank Indent.default)).1.text = _ ++ rest := exists_text_of_append hline
    refine ⟨"\n" ++ rest, ?_, .inr ⟨rest, rfl⟩⟩
    rw [hmore, ← String.append_assoc]
    exact hrest

/-- Header and source list the first occurrences of what they need, each as a directive of its own and
in order. The header holds them ahead of an empty line; the source starts with them, and ends there or
goes on behind an empty line, or is empty when the type is generic. The file that holds the definitions
includes all that they need. -/
theorem includes_cover_needs :
    (r.headerIncludes s).toList = (r.headerNeeds s).eraseDups ∧
    (r.sourceIncludes s).toList = (r.definitionNeeds s).eraseDups ∧
    (r.headerIncludes s).directives.Nodup ∧ (r.sourceIncludes s).directives.Nodup ∧
    (∃ rest, renderSteps (r.header s) = directiveLines (r.headerNeeds s).eraseDups ++
      (if (r.headerNeeds s).isEmpty then "" else "\n") ++ rest) ∧
    (if (HasHead.head s).isGeneric then renderSteps (r.source s) = ""
      else ∃ rest, renderSteps (r.source s) = directiveLines (r.definitionNeeds s).eraseDups ++ rest ∧
        (rest = "" ∨ ∃ more, rest = "\n" ++ more)) ∧
    r.definitions s <:+ (if (HasHead.head s).isGeneric then r.header s else r.source s) ∧
    ∀ i ∈ r.definitionNeeds s,
      i ∈ (if (HasHead.head s).isGeneric then r.headerIncludes s else r.sourceIncludes s).toList := by
  have hheader := r.toList_headerIncludes s
  have hsource := r.toList_sourceIncludes s
  refine ⟨hheader, hsource, nodup_directives _, nodup_directives _, ?_, ?_, ?_, fun i hi => ?_⟩
  · have hempty : (r.headerIncludes s).isEmpty = (r.headerNeeds s).isEmpty := by
      rw [IncludeList.isEmpty, hheader]
      cases r.headerNeeds s with
      | nil => rfl
      | cons => rw [List.eraseDups_cons]; rfl
    rw [← hheader, ← hempty]
    exact r.text_header s
  · cases hgeneric : (HasHead.head s).isGeneric with
    | true =>
      simp only [if_true]
      rw [source, hgeneric]; rfl
    | false =>
      rw [← hsource]
      exact r.text_source s hgeneric
  · cases hgeneric : (HasHead.head s).isGeneric with
    | true => exact ⟨_, by rw [header, hgeneric]; rfl⟩
    | false => exact ⟨[.includes (r.sourceIncludes s)], by rw [source, hgeneric]; rfl⟩
  · split
    next hgeneric =>
      rw [hheader, List.mem_eraseDups, headerNeeds, if_pos hgeneric]
      exact List.mem_append_right _ (List.mem_eraseDups.2 hi)
    next => rw [hsource, List.mem_eraseDups]; exact hi

end Renderer

end TypeGen.Render
