import TypeGen.Proofs.Code.Opening
import TypeGen.Proofs.Render.Documenting

/-!
Annotating of headers. The header of a spec and the header of the spec without its comments are written
side by side: the comments of the one stand where lines begin, and everything else is the same. No line
of the header without comments opens one, so it is what is left of the other when comments are taken out.
-/

namespace TypeGen.Render

open TypeGen.Code TypeGen.Spec TypeGen.Text

/-! ### Side by side -/

theorem restarts_spaced (body : List Step) : Restarts (strokesOf [.spaced body]) := by
  rw [strokesOf_singleton]
  exact restarts_scope ⟨"", rfl⟩ .lines "" (strokesOf body)

theorem alike_docs (doc : Option String) :
    Alike Page.IsFresh [] (strokesOf (doc.toList.map Step.doc)) := by
  cases doc with
  | none => exact alike_refl _ []
  | some text =>
    rw [Option.toList_some, List.map_singleton, strokesOf_singleton]
    exact alike_doc text

theorem alike_inSpace {body body' : List Step} (name : Option String)
    (h : Alike Page.IsFresh (strokesOf body) (strokesOf body')) :
    Alike Page.IsFresh (strokesOf [.inSpace name body]) (strokesOf [.inSpace name body']) := by
  rw [strokesOf_singleton, strokesOf_singleton]
  cases name with
  | none => exact h
  | some name =>
    refine h.scope fun p _ => ?_
    have hopening : "namespace " ++ name ++ " \x7b\n" = ("namespace " ++ name ++ " \x7b") ++ "\n" := by
      simp [← String.toList_inj]
    rw [hopening]
    exact atLineStart_write_line _ _

/-- The body of a type begins where a line begins. -/
theorem alike_struct {body body' : List Step} (name : String) (params : List String)
    (specialization : Bool) (h : Alike Page.IsFresh (strokesOf body) (strokesOf body')) :
    Alike Page.IsFresh (strokesOf [.struct name params specialization body])
      (strokesOf [.struct name params specialization body']) := by
  rw [strokesOf_singleton, strokesOf_singleton]
  refine (alike_refl _ _).append (R := fun _ => True) (fun _ _ _ => trivial) (h.scope fun p _ => ?_)
  exact atLineStart_freshLine _

namespace Renderer

variable {S : Type} [HasHead S] {r : Renderer S} {s s' : S}

theorem Agrees.alike_header (hr : r.Agrees s s')
    (htype : Alike Page.IsFresh (strokesOf (r.type s')) (strokesOf (r.type s))) :
    Alike Page.IsFresh (strokesOf (r.header s')) (strokesOf (r.header s)) := by
  have hincludes : Restarts (strokesOf (r.includeBlock s)) := by
    rw [Renderer.includeBlock]
    split
    · exact preserves_nil
    · exact restarts_spaced _
  have hforwards : Restarts (strokesOf (if (HasHead.head s).forwards.isEmpty then []
      else [.spaced ((HasHead.head s).forwards.map fun d => .semicolon [.text (bareDeclaration d)])])) := by
    split
    · exact preserves_nil
    · exact restarts_spaced _
  have hsection : Alike Page.IsFresh (strokesOf (r.typeSection s')) (strokesOf (r.typeSection s)) := by
    rw [typeSection, typeSection, hr.head]
    simp only [strokesOf_append]
    exact ((alike_refl _ _).append_of_restarts hforwards (alike_docs (HasHead.head s).doc)).append_of_restarts
      (hforwards.append preserves_nil) htype
  have hspace : (HasHead.head s').space = (HasHead.head s).space := by rw [hr.head]; rfl
  have hrest : Alike Page.IsFresh
      (strokesOf ([.inSpace (HasHead.head s).space (r.typeSection s')] ++ r.trailer s))
      (strokesOf ([.inSpace (HasHead.head s).space (r.typeSection s)] ++ r.trailer s)) := by
    rw [strokesOf_append, strokesOf_append]
    exact (alike_inSpace _ hsection).append (fun _ _ _ => trivial) (alike_refl (fun _ => True) _)
  rw [header_eq, header_eq, hr.includeBlock, hr.trailer, hspace, strokesOf_append, strokesOf_append]
  exact (alike_refl _ _).append_of_restarts hincludes hrest

end Renderer

/-! ### Structs -/

namespace StructSpec

variable (s : StructSpec)

theorem alike_fields : Alike Page.IsFresh
    (strokesOf (s.undocumented.fields.flatMap (fieldSteps s.undocumented)))
    (strokesOf (s.fields.flatMap (fieldSteps s))) := by
  rw [strokesOf_flatMap, strokesOf_flatMap, StructSpec.undocumented, List.flatMap_map]
  refine alike_flatMap fun f _ => ?_
  have hstep : Restarts (strokesOf
      [if f.indirect then .declare (accessor s f) else .line (f.type ++ " " ++ f.name ++ ";")]) := by
    rw [strokesOf_singleton]
    split
    · exact (preserves_flatMap fun t _ => restarts_line t).append
        (restarts_scope ⟨";", rfl⟩ .inline "" _)
    · exact restarts_line _
  refine ⟨?_, hstep⟩
  rw [fieldSteps, fieldSteps, strokesOf_append, strokesOf_append]
  exact (alike_docs f.doc).append_of_restarts preserves_nil (alike_refl _ _)

theorem alike_publicSteps : Alike Page.IsFresh (strokesOf (publicSteps registry s.undocumented))
    (strokesOf (publicSteps registry s)) := by
  have hempty : s.undocumented.fields.isEmpty = s.fields.isEmpty := List.isEmpty_map
  have hdecls : registry.emitAll .memberDecls s.undocumented = registry.emitAll .memberDecls s :=
    (agrees s).emitAll .memberDecls
  have hfields := alike_fields s
  rw [publicSteps, publicSteps, hempty, constructor_undocumented, hdecls]
  cases hnone : s.fields.isEmpty with
  | true =>
    rw [List.isEmpty_iff.1 hnone, List.isEmpty_iff.1 (hempty.trans hnone)]
    exact alike_refl _ _
  | false =>
    rw [strokesOf_append, strokesOf_append _ (s.fields.flatMap _)]
    refine (alike_refl _ _).append (R := Page.IsFresh) (fun p _ hdone => ?_) hfields
    -- ahead of the fields there is an empty line
    simp only [Bool.false_eq_true, if_false] at hdone ⊢
    rw [strokesOf_append, runAll_append_eq] at hdone ⊢
    split at hdone
    next hahead => rw [if_pos hahead]; rfl
    next hahead => exact absurd hdone hahead

theorem alike_type : Alike Page.IsFresh (strokesOf (renderer.type s.undocumented))
    (strokesOf (renderer.type s)) := by
  show Alike _ (strokesOf (typeSteps registry s.undocumented)) (strokesOf (typeSteps registry s))
  rw [typeSteps_eq, typeSteps_eq, hasIndirect_undocumented, privateSteps_undocumented]
  refine alike_struct s.name s.params false ?_
  rw [strokesOf_append, strokesOf_append]
  exact (alike_publicSteps s).append (fun _ _ _ => trivial) (alike_refl (fun _ => True) _)

end StructSpec

theorem VariantSpec.type_undocumented (s : VariantSpec) :
    VariantSpec.renderer.type s.undocumented = VariantSpec.renderer.type s := by
  have hdecls : VariantSpec.registry.emitAll .memberDecls s.undocumented =
      VariantSpec.registry.emitAll .memberDecls s := (VariantSpec.agrees s).emitAll .memberDecls
  show VariantSpec.typeSteps _ _ = VariantSpec.typeSteps _ _
  rw [VariantSpec.typeSteps, VariantSpec.typeSteps, hdecls]
  rfl

theorem alike_headerSteps (s : Spec) : Alike Page.IsFresh (strokesOf (headerSteps s.undocumented))
    (strokesOf (headerSteps s)) := by
  cases s with
  | struct s => exact (StructSpec.agrees s).alike_header (StructSpec.alike_type s)
  | enum s => exact (EnumSpec.agrees s).alike_header (alike_refl _ _)
  | variant s =>
    refine (VariantSpec.agrees s).alike_header ?_
    rw [VariantSpec.type_undocumented]
    exact alike_refl _ _

/-! ### Without comments -/

theorem isLine_bareDeclaration {d : String} (h : IsLine d) : IsLine (bareDeclaration d) := by
  intro hn
  rw [bareDeclaration, String.toList_ofList] at hn
  have htrim : '\n' ∈ trim d.toList := (List.rdropWhile_prefix _ _).subset hn
  have hdrop : '\n' ∈ d.toList.dropWhile isBlank := (prefix_trimEnd _).subset htrim
  exact h ((List.dropWhile_suffix isBlank).subset hdrop)

theorem stays_forwards {ds : List String} (h : ∀ d ∈ ds, IsLine d) :
    Stays (strokesOf (if ds.isEmpty then []
      else [.spaced (ds.map fun d => .semicolon [.text (bareDeclaration d)])])) := by
  have hone : ∀ d ∈ ds, Stays (Step.semicolon [.text (bareDeclaration d)]).strokes := by
    intro d hd p hp
    have hline : IsLine (bareDeclaration d ++ ";") := by
      simpa [IsLine] using isLine_bareDeclaration (h d hd)
    have hinert : IsInert (bareDeclaration d ++ ";\n") :=
      inert_line hline (by simp [HasInk, isInk]) (by simp)
    have hwrite := hinert p hp
    rw [write_append] at hwrite
    exact hwrite
  split
  · exact preserves_nil
  · have hall : Stays (strokesOf (ds.map fun d => .semicolon [.text (bareDeclaration d)])) := by
      rw [strokesOf_eq_flatMap]
      exact preserves_flatMap (List.forall_mem_map.2 hone)
    rw [strokesOf_singleton]
    exact hall.scope (every_scope inert_empty inert_newline)

theorem stays_inSpace {name : Option String} {body : List Step} (hname : ∀ n ∈ name, IsLine n)
    (h : Stays (strokesOf body)) : Stays (strokesOf [.inSpace name body]) := by
  have hbare : EveryOf Act.IsInert (Step.inSpace name []).bare.strokes :=
    every_of_isWorded (by simpa [Step.IsWorded, Step.texts] using hname)
  rw [strokesOf_singleton]
  cases name with
  | none => exact h
  | some name => exact h.scope hbare

theorem stays_struct {name : String} {params : List String} {specialization : Bool} {body : List Step}
    (hname : IsLine name) (hparams : ∀ t ∈ params, IsLine t) (h : Stays (strokesOf body)) :
    Stays (strokesOf [.struct name params specialization body]) := by
  have hbare : EveryOf Act.IsInert (Step.struct name params specialization []).bare.strokes :=
    every_of_isWorded (List.forall_mem_cons.2 ⟨hname, hparams⟩)
  obtain ⟨hlines, hblock⟩ := everyOf_append.1 hbare
  rw [strokesOf_singleton]
  exact (preserves_of_every hlines).append (h.scope hblock)

theorem Renderer.IsWorded.stays_header {S : Type} [HasHead S] {r : Renderer S} {s : S}
    (hr : r.IsWorded IsLine (fun _ => False) s) (hdoc : (HasHead.head s).doc = none)
    (htype : Stays (strokesOf (r.type s))) : Stays (strokesOf (r.header s)) := by
  obtain ⟨-, hspace, -, -⟩ := worded_head hr.head
  have hforwards : ∀ d ∈ (HasHead.head s).forwards, IsLine d := fun d hd =>
    hr.head d (by simp [Spec.Head.fragments, hd])
  have hsection : Stays (strokesOf (r.typeSection s)) := by
    rw [typeSection, hdoc, strokesOf_append, strokesOf_append]
    exact ((stays_forwards hforwards).append preserves_nil).append htype
  rw [header_eq, strokesOf_append, ← List.singleton_append, strokesOf_append]
  exact (stays_of_isWorded hr.includeBlock).append
    ((stays_inSpace hspace hsection).append (stays_of_isWorded hr.trailer))

/-! #### Types -/

theorem stays_structType {s : StructSpec} (hs : ∀ t ∈ s.fragments, IsLine t)
    (hdocs : ∀ f ∈ s.fields, f.doc = none) : Stays (strokesOf (StructSpec.renderer.type s)) := by
  have hworded : StructSpec.renderer.IsWorded IsLine (fun _ => False) s :=
    StructSpec.worded_renderer composes_isLine hs
  obtain ⟨hname, -, hparams, -⟩ := worded_head hworded.head
  have hpublic : Stays (strokesOf (StructSpec.publicSteps StructSpec.registry s)) :=
    stays_of_isWorded (StructSpec.worded_publicSteps composes_isLine hs
      (fun f hf d hd => by simp [hdocs f hf] at hd) (hworded.emitAll .memberDecls))
  have hlabel : Stays (strokesOf [.blank, .dedent, .line "private:", .indent]) := by
    refine preserves_of_every ⟨?_, ?_, ?_, ?_, ?_, ?_, trivial⟩
    · exact fun _ hp => hp.freshLine
    · exact fun _ hp => hp.newline
    · exact fun _ hp => hp.of_level _
    · exact inert_of_ink (by decide) (by decide)
    · exact fun _ hp => hp.newline
    · exact fun _ hp => hp.of_level _
  have hprivate : Stays (strokesOf (if s.hasIndirect then StructSpec.privateSteps s else [])) := by
    split
    · rw [StructSpec.privateSteps, strokesOf_append]
      exact hlabel.append (stays_of_isWorded (StructSpec.worded_pointers composes_isLine hs))
    · exact preserves_nil
  show Stays (strokesOf (StructSpec.typeSteps StructSpec.registry s))
  rw [StructSpec.typeSteps_eq]
  refine stays_struct hname hparams ?_
  rw [strokesOf_append]
  exact hpublic.append hprivate

theorem stays_enumType {s : EnumSpec}
    (hs : ∀ t ∈ s.fragments, IsLine t ∧ ¬ ['/', '*'] <:+: t.toList) :
    Stays (strokesOf (EnumSpec.renderer.type s)) := by
  obtain ⟨hhead, hvalues⟩ := List.forall_mem_append.1 hs
  have hname : IsLine s.name := (hhead s.name (by simp [Spec.Head.fragments])).1
  have hword : Stays [.text ("enum class " ++ s.name)] :=
    preserves_of_every ⟨inert_of_ink (by simpa [IsLine] using hname) (by simp [HasInk, isInk]), trivial⟩
  have hgap : Stays [.gap] := preserves_of_every ⟨inert_gap, trivial⟩
  have hjoin : strokesOf [.join ",\n" (s.values.map fun v => [.text v.name])] =
      strokesOfJoin ",\n" ((s.values.map (·.name)).map fun t => [.text t]) := by
    rw [strokesOf_singleton, Step.strokes, strokesOfItems_eq, List.map_map, List.map_map]
    rfl
  have hbraces : Stays [.scope .indented "\x7b" "\x7d"
      (strokesOf [.join ",\n" (s.values.map fun v => [.text v.name])])] := by
    intro p hp
    have hopening : IsInert "\x7b" := inert_of_ink (by decide) (by decide)
    have hclosing : ∀ {q : Page}, q.IsUncommented → (Setting.indented.leave "\x7d" q).IsUncommented :=
      IsInert.leave (inert_of_ink (by decide) (by decide))
    have hfresh : (Setting.indented.enter "\x7b" p).IsFresh := atLineStart_freshLine (p.write "\x7b")
    have hjoined := isUncommented_join hvalues _ (hopening.enter hp) hfresh
    rw [runAll_scope, hjoin]
    exact hclosing hjoined
  have hinside : Stays (strokesOf [.text ("enum class " ++ s.name),
      .braces [.join ",\n" (s.values.map fun v => [.text v.name])]]) := hword.append (hgap.append hbraces)
  show Stays (strokesOf [.semicolon _])
  rw [strokesOf_singleton]
  exact hinside.scope (every_scope inert_empty (inert_line (t := ";") (by decide) (by decide) rfl))

theorem stays_headerSteps {s : Spec}
    (hs : ∀ t ∈ s.fragments, IsLine t ∧ ¬ ['/', '*'] <:+: t.toList) :
    Stays (strokesOf (headerSteps s.undocumented)) := by
  rw [← Spec.fragments_undocumented] at hs
  have hlines : ∀ t ∈ s.undocumented.fragments, IsLine t := fun t ht => (hs t ht).1
  cases s with
  | struct s =>
    refine (StructSpec.worded_renderer composes_isLine hlines).stays_header rfl
      (stays_structType hlines ?_)
    exact List.forall_mem_map.2 fun _ _ => rfl
  | enum s =>
    exact (EnumSpec.worded_renderer composes_isLine hlines).stays_header rfl (stays_enumType hs)
  | variant s =>
    have hworded := VariantSpec.worded_renderer (D := fun _ => False) composes_isLine hlines
    exact hworded.stays_header rfl (stays_of_isWorded
      (VariantSpec.worded_typeSteps composes_isLine hlines (hworded.emitAll .memberDecls)))

/-! ### Headers -/

/-- What is left of a header without its comments is the header of the spec without its comments. -/
theorem withoutComments_headerCode {s : Spec}
    (hs : ∀ t ∈ s.fragments, IsLine t ∧ ¬ ['/', '*'] <:+: t.toList) :
    withoutComments (headerCode s) = headerCode s.undocumented := by
  have hblank : (Page.blank Indent.default).IsFresh := rfl
  obtain ⟨⟨-, t, htext, hannotates⟩, -⟩ :=
    alike_headerSteps s _ _ hblank (annotated_blank Indent.default)
  have hopen := stays_headerSteps hs _ (isUncommented_blank Indent.default)
  have hcode : headerCode s = t := congrArg Page.text htext
  rw [hcode]
  exact hannotates.withoutComments hopen.lines

/-- Specs that differ in nothing but their comments have the same source, and their headers differ in
nothing but their comments: without them either is the header of the spec that says nothing in comments.
What else the specs say is free of line feeds and opens no comment. -/
theorem sameCode_of_undocumented {s s' : Spec} (h : s.undocumented = s'.undocumented)
    (hs : ∀ t ∈ s.fragments, '\n' ∉ t.toList ∧ ¬ ['/', '*'] <:+: t.toList) :
    sourceCode s = sourceCode s' ∧ withoutComments (headerCode s) = withoutComments (headerCode s') ∧
      withoutComments (headerCode s) = headerCode s.undocumented := by
  have hs' : ∀ t ∈ s'.fragments, '\n' ∉ t.toList ∧ ¬ ['/', '*'] <:+: t.toList := by
    rwa [← Spec.fragments_undocumented, h, Spec.fragments_undocumented] at hs
  have hheader := withoutComments_headerCode hs
  have hheader' := withoutComments_headerCode hs'
  refine ⟨?_, ?_, hheader⟩
  · rw [← sourceCode_undocumented s, h, sourceCode_undocumented s']
  · rw [hheader, hheader', h]

/-- A node of a list, with a comment on the type and one on the value. -/
def node (doc valueDoc : Option String) : Spec :=
  .struct
    { name := "Node"
      space := some "list"
      params := []
      features := FeatureSet.ofList [.eq, .fmt]
      includes := [⟨"list/tail.h", false⟩]
      sourceIncludes := []
      postIncludes := []
      forwards := ["struct Tail;"]
      doc := doc
      fields := [⟨"value", "int", valueDoc, false, "*/"⟩, ⟨"next", "Node", none, true, "/**"⟩] }

theorem sameCode_of_undocumented_node :
    let s := node (some "ends */ here\r\n\n/**\n  * \t\n") none
    let s' := node none (some "")
    s.undocumented = s'.undocumented ∧
      (∀ t ∈ s.fragments, '\n' ∉ t.toList ∧ ¬ ['/', '*'] <:+: t.toList) ∧
      sourceCode s = sourceCode s' ∧ withoutComments (headerCode s) = withoutComments (headerCode s') ∧
      withoutComments (headerCode s) = headerCode s.undocumented := by
  intro s s'
  have hsame : s.undocumented = s'.undocumented := rfl
  have hplain : ∀ t ∈ ["Node", "list", "struct Tail;", "list/tail.h", "value", "int", "next", "Node"],
      '\n' ∉ t.toList ∧ ¬ ['/', '*'] <:+: t.toList := by
    simp [List.infix_cons_iff]
  exact ⟨hsame, hplain, sameCode_of_undocumented hsame hplain⟩

end TypeGen.Render
