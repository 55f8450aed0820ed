import TypeGen.Proofs.Code.Indenting
import TypeGen.Proofs.Render.Wording

/-!
Indenting of headers and sources. Their code goes back by a level in one place apart from the ends of
blocks, where the members of a struct become private, and there it stands in a block.
-/

namespace TypeGen.Render

open TypeGen.Code TypeGen.Spec

/-- From a level on, steps come back to it without going behind it. -/
def Upright (n : Nat) (steps : List Step) : Prop := Returns n (strokesOf steps)

namespace Upright

variable {n m : Nat} {xs ys body : List Step}

theorem of_steady (h : AllOf Step.IsSteady xs) : Upright 0 xs :=
  returns_of_isSteady (h.every fun _ hs => everyOf_isSteady hs)

theorem mono (h : Upright m xs) (hle : m ≤ n) : Upright n xs := Returns.mono h hle

theorem append (hx : Upright n xs) (hy : Upright n ys) : Upright n (xs ++ ys) := by
  rw [Upright, strokesOf_append]
  exact Returns.append hx hy

theorem inSpace (h : Upright n body) (name : Option String) : Upright n [.inSpace name body] := by
  rw [Upright, strokesOf_singleton]
  cases name with
  | none => exact h
  | some name => exact Returns.scope (show Returns (n + Setting.lines.depth) _ from h)

/-- The body of a type is one level deeper. -/
theorem struct (h : Upright (n + 1) body) (name : String) (params : List String)
    (specialization : Bool) : Upright n [.struct name params specialization body] := by
  have hlines : Upright 0 [.template params specialization] :=
    of_steady ⟨⟨Step.noConfusion, Step.noConfusion⟩, trivial⟩
  rw [Upright, strokesOf_singleton] at hlines ⊢
  exact (Returns.mono hlines (Nat.zero_le n)).append
    (Returns.scope (show Returns (n + Setting.indented.depth) _ from h))

end Upright

/-! ### Worded code -/

theorem composes_true : Composes fun _ => True := ⟨fun _ => trivial, by simp⟩

theorem isSteady_of_isWorded {N D : String → Prop} (s : Step) (h : s.IsWorded N D) :
    s.IsSteady := by
  refine ⟨?_, ?_⟩ <;> rintro rfl <;> exact h

abbrev IsFree (s : Step) : Prop := s.IsWorded (fun _ => True) fun _ => True

theorem upright_of_isFree {steps : List Step} (h : AllOf IsFree steps) : Upright 0 steps :=
  returns_of_isSteady (h.every fun s hs => everyOf_isSteady (isSteady_of_isWorded s hs))

namespace Renderer

variable {S : Type} [HasHead S] {r : Renderer S} {s : S}

theorem upright_forwards (h : Head) : Upright 0 (if h.forwards.isEmpty then []
    else [.spaced (h.forwards.map fun d => .semicolon [.text (bareDeclaration d)])]) := by
  refine .of_steady ?_
  split
  · trivial
  · simp [AllOf, Step.All, allOf_iff, Step.IsSteady]

/-- Around the type nothing goes back by a level but the ends of blocks. -/
theorem IsWorded.upright (hr : r.IsWorded (fun _ => True) (fun _ => True) s)
    (htype : Upright 0 (r.type s)) : Upright 0 (r.header s) ∧ Upright 0 (r.source s) := by
  have hdocs : Upright 0 ((HasHead.head s).doc.toList.map Step.doc) :=
    upright_of_isFree (allOf_iff.2 (List.forall_mem_map.2 fun _ _ => trivial))
  have hsection : Upright 0 (r.typeSection s) := ((upright_forwards _).append hdocs).append htype
  refine ⟨?_, upright_of_isFree hr.source⟩
  rw [header_eq]
  exact (upright_of_isFree hr.includeBlock).append
    ((hsection.inSpace _).append (upright_of_isFree hr.trailer))

end Renderer

/-! ### Types -/

/-- The label of private members is one level less deep than the members. -/
theorem upright_privateSteps (s : StructSpec) : Upright 1 (StructSpec.privateSteps s) := by
  have hpointers : Upright 0 ((s.fields.filter (·.indirect)).map fun f =>
      .line ("std::shared_ptr<" ++ f.type ++ "> " ++ f.name ++ ";")) :=
    upright_of_isFree (StructSpec.worded_pointers composes_true (by simp))
  refine Upright.append (fun p hp => ?_) (hpointers.mono (Nat.zero_le 1))
  have hback : p.level - 1 + 1 = p.level := by omega
  have hkeeps : ∀ {a : Act} {P : Prop}, a.lowers = false → a.lowers = true → P := fun h h' =>
    absurd (h.symm.trans h') Bool.false_ne_true
  refine ⟨⟨hkeeps rfl, hkeeps rfl, fun _ => ?_, hkeeps rfl, hkeeps rfl, hkeeps rfl, trivial⟩, ?_⟩
  · show 0 < p.freshLine.newline.level
    simpa using Nat.lt_of_succ_le hp
  · show ((p.freshLine.newline.shallower.write "private:").newline.deeper).level = p.level
    simp [Page.deeper, Page.shallower, hback]

theorem upright_structType (s : StructSpec) : Upright 0 (StructSpec.renderer.type s) := by
  have hworded : StructSpec.renderer.IsWorded (fun _ => True) (fun _ => True) s :=
    StructSpec.worded_renderer composes_true (by simp)
  have hpublic : Upright 0 (StructSpec.publicSteps StructSpec.registry s) :=
    upright_of_isFree (StructSpec.worded_publicSteps composes_true (by simp) (by simp)
      (hworded.emitAll .memberDecls))
  have hprivate : Upright 1 (if s.hasIndirect then StructSpec.privateSteps s else []) := by
    split
    · exact upright_privateSteps s
    · exact (upright_of_isFree (show AllOf IsFree [] from trivial)).mono (Nat.zero_le 1)
  exact Upright.struct ((hpublic.mono (Nat.zero_le 1)).append hprivate) s.name s.params false

theorem upright_enumType (s : EnumSpec) : Upright 0 (EnumSpec.renderer.type s) := by
  refine .of_steady ?_
  show AllOf _ (EnumSpec.typeSteps s)
  simp [EnumSpec.typeSteps, AllOf, Step.All, allOfItems_iff, Step.IsSteady]

theorem upright_variantType (s : VariantSpec) : Upright 0 (VariantSpec.renderer.type s) := by
  have hworded : VariantSpec.renderer.IsWorded (fun _ => True) (fun _ => True) s :=
    VariantSpec.worded_renderer composes_true (by simp)
  exact upright_of_isFree (VariantSpec.worded_typeSteps composes_true (by simp)
    (hworded.emitAll .memberDecls))

theorem upright_code (s : Spec) : Upright 0 (headerSteps s) ∧ Upright 0 (sourceSteps s) := by
  cases s with
  | struct s => exact (StructSpec.worded_renderer composes_true (by simp)).upright (upright_structType s)
  | enum s => exact (EnumSpec.worded_renderer composes_true (by simp)).upright (upright_enumType s)
  | variant s =>
    exact (VariantSpec.worded_renderer composes_true (by simp)).upright (upright_variantType s)

/-- Steps that never go back from the outermost level do on an empty page some levels deeper what they
do at the outermost level, with as many units of indentation in front of each line that is not empty.
Header and source of every spec are such steps. -/
theorem onlyIndents (i : Indent) (k : Nat) :
    (∀ steps, NeverSinks i steps → OnlyIndents i k steps) ∧
      ∀ s : Spec, OnlyIndents i k (headerSteps s) ∧ OnlyIndents i k (sourceSteps s) := by
  have hupright : ∀ {steps}, Upright 0 steps → OnlyIndents i k steps := fun h =>
    NeverSinks.indents (h (Page.blank i) (Nat.zero_le _)).1 k
  refine ⟨fun steps hsinks => hsinks.indents k, fun s => ?_⟩
  obtain ⟨hheader, hsource⟩ := upright_code s
  exact ⟨hupright hheader, hupright hsource⟩

/-- A block with a label, an empty line and a text of two lines in it, which ends early. -/
def labelled : List Step :=
  [.block "struct A" "\x7d;" [.line "int a;", .blank, .dedent, .line "private:", .indent,
    .text "int b;\nint c;", .fail "stop"], .line "int d;"]

theorem onlyIndents_labelled : NeverSinks .tab labelled ∧
    runSteps labelled ⟨.tab, 2, "", true⟩ =
      (⟨.tab, 2, "\t\tstruct A \x7b\n\t\t\tint a;\n\n\t\tprivate:\n\t\t\tint b;\n\t\t\tint c;\n\t\t\x7d;\n",
        true⟩, .failed "stop") := by
  have hsinks : NeverSinks .tab labelled := by decide
  refine ⟨hsinks, ((onlyIndents .tab 2).1 labelled hsinks).trans ?_⟩
  decide

end TypeGen.Render
