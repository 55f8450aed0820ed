import TypeGen.Proofs.Code.Balancing
import TypeGen.Proofs.Text.Splitting
import TypeGen.Render.Outline
import TypeGen.Render.Integration

/-!
Emitting. What the kinds of specs share is balanced when the fragments in the head of the spec are clear
and the bodies that the kind fills in are balanced: the specializations of each feature, the features
together, and the outline of header and source.
-/

namespace TypeGen

open TypeGen.Code TypeGen.Spec TypeGen.Text TypeGen.Render

/-- The fragments of code in a head. -/
def Spec.Head.fragments (h : Head) : List String :=
  h.name :: h.space.toList ++ h.params ++ h.forwards ++
    (h.includes ++ h.sourceIncludes ++ h.postIncludes).map (·.path)

namespace Render

/-- A head whose fragments are what they are called. -/
structure IsSound (h : Head) : Prop where
  name : IsFragment h.name
  space : ∀ n ∈ h.space, IsFragment n
  params : ∀ t ∈ h.params, IsFragment t
  forwards : ∀ d ∈ h.forwards, IsFragment d
  includes : ∀ i ∈ h.includes, IsFragment i.path
  sourceIncludes : ∀ i ∈ h.sourceIncludes, IsFragment i.path
  postIncludes : ∀ i ∈ h.postIncludes, IsFragment i.path

theorem isSound_of_fragments {h : Head} (hh : ∀ t ∈ h.fragments, IsFragment t) : IsSound h := by
  simp only [Spec.Head.fragments, List.forall_mem_append, List.forall_mem_cons, List.forall_mem_map,
    Option.mem_toList] at hh
  obtain ⟨⟨⟨⟨hname, hspace⟩, hparams⟩, hforwards⟩, ⟨hincludes, hsource⟩, hpost⟩ := hh
  exact ⟨hname, hspace, hparams, hforwards, hincludes, hsource, hpost⟩

/-! ### Names -/

namespace IsSound

variable {h : Head} (hh : IsSound h)
include hh

theorem clear_name : Clear h.name := hh.name.clear

theorem clear_params : ∀ t ∈ h.params, Clear t := fun t ht => (hh.params t ht).clear

theorem clear_unqualified : Clear (unqualified h) := by
  rw [unqualified, templateArgs]
  split
  · simpa using hh.clear_name
  · have hargs : Clear ("<" ++ joinWith ", " h.params ++ ">") :=
      clear_phrase (.fixed _) [.code (combines_clear.listed hh.clear_params), .fixed _] (by rfl)
    have hall : Clear (h.name ++ "<" ++ joinWith ", " h.params ++ ">") :=
      clear_phrase (.code hh.clear_name)
        [.fixed _, .code (combines_clear.listed hh.clear_params), .fixed _] (by rfl)
    simpa [String.append_assoc] using hall

theorem clear_qualified : Clear (qualified h) := by
  rw [qualified]
  split
  next space hspace =>
    exact clear_phrase (.fixed _)
      [.code (hh.space space hspace).clear, .fixed _, .code hh.clear_unqualified] (by rfl)
  next => exact clear_phrase (.fixed _) [.code hh.clear_unqualified] (by rfl)

end IsSound

theorem isWordChar_toString (i : Nat) : ∀ c ∈ (toString i).toList, isWordChar c = true := fun c hc => by
  rw [Nat.toString_eq_ofList_toDigits, String.toList_ofList] at hc
  have hdigit := Nat.isDigit_of_mem_toDigits (by decide) (by decide) hc
  simp [isWordChar, Char.isAlphanum, hdigit]

theorem clear_word {t : String} (h : ∀ c ∈ t.toList, isWordChar c = true) : Clear t :=
  (isFragment_of_word h).clear

/-- A type variable is a word. -/
theorem clear_freshVariable (params : List String) {stem : String}
    (hstem : stem.toList.all isWordChar = true) : Clear (freshVariable params stem) := by
  rw [List.all_eq_true] at hstem
  have hnumbered : ∀ i : Nat, Clear (stem ++ toString i) := fun i => by
    refine clear_word fun c hc => ?_
    rw [String.toList_append, List.mem_append] at hc
    exact hc.elim (hstem c) (isWordChar_toString i c)
  rw [freshVariable]
  split
  · split
    · exact hnumbered _
    · exact clear_word hstem
  · exact clear_word hstem

/-- What is taken off a declaration are blanks and semicolons. -/
theorem clear_bareDeclaration {d : String} (h : IsFragment d) : Clear (bareDeclaration d) := by
  have hblank : ∀ c, isBlank c = true → Brackets.ofCode.contains c = false := fun c hc => by
    refine Bool.eq_false_iff.2 fun hcontains => ?_
    obtain ⟨pair, hp, heq⟩ := List.any_eq_true.1 hcontains
    simp only [Brackets.ofCode, List.mem_cons, List.not_mem_nil, or_false] at hp
    simp only [Bool.or_eq_true, decide_eq_true_eq] at heq
    rcases hp with rfl | rfl | rfl
    all_goals rcases heq with rfl | rfl <;> revert hc <;> decide
  obtain ⟨blanks, htrim, hblanks⟩ := exists_append_dropEnd isBlank (d.toList.dropWhile isBlank)
  obtain ⟨marks, hbare, hmarks⟩ := exists_append_dropEnd (· = ';') (trim d.toList)
  have hsplit : d.toList = d.toList.takeWhile isBlank ++
      dropEnd (· = ';') (trim d.toList) ++ (marks ++ blanks) := by
    rw [List.append_assoc, ← List.append_assoc _ marks, ← hbare, trim, trimEnd, ← htrim,
      List.takeWhile_append_dropWhile]
  refine (isFragment_of_split h hsplit fun c hc => ?_).clear
  simp only [List.mem_append] at hc
  rcases hc with hc | hc | hc
  · exact hblank c (List.mem_takeWhile_imp hc)
  · have hmark : c = ';' := by simpa using hmarks c hc
    rw [hmark]; decide
  · exact hblank c (hblanks c hc)

/-! ### Features -/

variable {S : Type} [HasHead S] {h : Head}

theorem balancedSteps_memberDef (hh : IsSound h) {f : Function} {body : List Step}
    (hf : ∀ t ∈ f.texts, Clear t) (hbody : BalancedSteps body) :
      BalancedSteps (memberDef h f body) :=
  balancedSteps_cons (balanced_template hh.clear_params false)
    (balancedSteps_one (balanced_define hf hbody))

theorem balancedSteps_specialization (hh : IsSound h) {space template : String}
    {members : List Function}
    (hspace : IsFragment space) (htemplate : Clear template)
    (hmembers : ∀ f ∈ members, ∀ t ∈ f.texts, Clear t) :
    BalancedSteps (specialization h space template members) := by
  have hname : Clear (template ++ "<" ++ qualified h ++ ">") :=
    clear_phrase (.code htemplate) [.fixed _, .code hh.clear_qualified, .fixed _] (by rfl)
  refine balancedSteps_one (balanced_inSpace (by simpa using hspace) (balancedSteps_one ?_))
  exact balanced_struct hname hh.clear_params
    (balancedSteps_map fun f hf => balanced_declare (hmembers f hf))

/-- A parameter of the type of the spec. -/
theorem clear_constRef {t : String} (ht : Clear t) : Clear (t ++ " const &") :=
  clear_phrase (.code ht) [.fixed _] (by rfl)

theorem clear_eqOps : ∀ op ∈ eqOps, Clear op :=
  List.forall_mem_cons.2 ⟨clear_fixed (by rfl), List.forall_mem_singleton.2 (clear_fixed (by rfl))⟩

theorem clear_ordOps : ∀ op ∈ ordOps, Clear op :=
  List.forall_mem_cons.2 ⟨clear_fixed (by rfl), List.forall_mem_cons.2 ⟨clear_fixed (by rfl),
    List.forall_mem_cons.2 ⟨clear_fixed (by rfl), List.forall_mem_singleton.2 (clear_fixed (by rfl))⟩⟩⟩

theorem clear_comparison (hh : IsSound h) {op : String} (hop : Clear op) :
    ∀ t ∈ (comparison h op).texts, Clear t := by
  have hname : Clear ("operator" ++ op) := clear_phrase (.fixed _) [.code hop] (by rfl)
  have hbool : Clear "bool" := clear_fixed (by rfl)
  have hother : Clear "other" := clear_fixed (by rfl)
  simpa [forall_mem_texts, comparison, Function.named] using
    ⟨hname, hh.clear_unqualified, hbool, clear_constRef hh.clear_unqualified, hother⟩

theorem clear_hashFunction (hh : IsSound h) {param : String} (hparam : Clear param) :
    ∀ t ∈ (hashFunction h param).texts, Clear t := by
  have hname : Clear "operator()" := clear_fixed (by rfl)
  have hscope : Clear ("hash<" ++ qualified h ++ ">") :=
    clear_phrase (.fixed _) [.code hh.clear_qualified, .fixed _] (by rfl)
  have hreturns : Clear "size_t" := clear_fixed (by rfl)
  have hx : Clear "x" := clear_fixed (by rfl)
  simpa [forall_mem_texts, hashFunction, Function.named] using
    ⟨hname, hscope, hreturns, hparam, hx⟩

theorem clear_fromJson (hh : IsSound h) : ∀ t ∈ (fromJson h).texts, Clear t := by
  have hname : Clear "from_json" := clear_fixed (by rfl)
  have hscope : Clear ("adl_serializer<" ++ qualified h ++ ">") :=
    clear_phrase (.fixed _) [.code hh.clear_qualified, .fixed _] (by rfl)
  have htype : Clear "json const &" := clear_fixed (by rfl)
  have hj : Clear "j" := clear_fixed (by rfl)
  simpa [forall_mem_texts, fromJson, Function.named] using
    ⟨hname, hscope, hh.clear_qualified, htype, hj⟩

theorem clear_toJson (hh : IsSound h) {param : String} (hparam : Clear param) :
    ∀ t ∈ (toJson h param).texts, Clear t := by
  have hname : Clear "to_json" := clear_fixed (by rfl)
  have hscope : Clear ("adl_serializer<" ++ qualified h ++ ">") :=
    clear_phrase (.fixed _) [.code hh.clear_qualified, .fixed _] (by rfl)
  have hreturns : Clear "void" := clear_fixed (by rfl)
  have htype : Clear "json &" := clear_fixed (by rfl)
  have hj : Clear "j" := clear_fixed (by rfl)
  have hx : Clear "x" := clear_fixed (by rfl)
  simpa [forall_mem_texts, toJson, Function.named] using
    ⟨hname, hscope, hreturns, ⟨htype, hj⟩, hparam, hx⟩

theorem clear_arbitraryFunction (hh : IsSound h) : ∀ t ∈ (arbitraryFunction h).texts, Clear t := by
  have hname : Clear "arbitrary" := clear_fixed (by rfl)
  have hscope : Clear ("Arbitrary<" ++ qualified h ++ ">") :=
    clear_phrase (.fixed _) [.code hh.clear_qualified, .fixed _] (by rfl)
  have hreturns : Clear ("Gen<" ++ qualified h ++ ">") :=
    clear_phrase (.fixed _) [.code hh.clear_qualified, .fixed _] (by rfl)
  simpa [forall_mem_texts, arbitraryFunction, Function.named] using ⟨hname, hscope, hreturns⟩

theorem clear_formatFunction (hh : IsSound h) {param : String} (hparam : Clear param) :
    ∀ t ∈ (formatFunction h param).texts, Clear t := by
  have hname : Clear "format_as" := clear_fixed (by rfl)
  have hreturns : Clear "std::string" := clear_fixed (by rfl)
  have hx : Clear "x" := clear_fixed (by rfl)
  simpa [forall_mem_texts, formatFunction, Function.named] using
    ⟨hname, hreturns, hh.clear_params, hparam, hx⟩

theorem clear_streamFunction (hh : IsSound h) {param : String} (hparam : Clear param) :
    ∀ t ∈ (streamFunction h param).texts, Clear t := by
  have hname : Clear "operator<<" := clear_fixed (by rfl)
  have hstream : Clear "std::ostream &" := clear_fixed (by rfl)
  have hs : Clear "s" := clear_fixed (by rfl)
  have hx : Clear "x" := clear_fixed (by rfl)
  simpa [forall_mem_texts, streamFunction, Function.named] using
    ⟨hname, hstream, hh.clear_params, ⟨hstream, hs⟩, hparam, hx⟩

theorem balanced_assignKey (key : String) {value : String} (hvalue : Clear value) :
    Balanced (assignKey key value).strokes :=
  balanced_line (clear_phrase (.fixed _)
    [.code (clear_literal key), .fixed _, .code hvalue, .fixed _] (by rfl))

/-- What an emitter contributes to the code of a spec is balanced. -/
structure Emitter.IsSafe (e : Emitter S) (s : S) : Prop where
  includes : ∀ i ∈ e.headerIncludes ++ e.sourceIncludes, IsFragment i.path
  balanced : ∀ slot emit, e.emit slot = some emit → BalancedSteps (emit s)

variable {s : S} (hh : IsSound (HasHead.head s))
include hh

theorem isSafe_comparison {needs : List Include} {ops : List String}
    {body : S → String → List Step} (hneeds : ∀ i ∈ needs, IsFragment i.path)
    (hops : ∀ op ∈ ops, Clear op) (hbody : ∀ op ∈ ops, BalancedSteps (body s op)) :
    (comparisonEmitter needs ops body).IsSafe s where
  includes := by simpa [comparisonEmitter] using hneeds
  balanced slot emit he := by
    cases slot with
    | memberDecls =>
      cases he
      exact balancedSteps_map fun op hop => balanced_declare (clear_comparison hh (hops op hop))
    | memberDefs =>
      cases he
      exact balancedSteps_one (balanced_join (List.forall_mem_map.2 fun op hop =>
        balancedSteps_memberDef hh (clear_comparison hh (hops op hop)) (hbody op hop)))
    | decls | defs => cases he

theorem isSafe_hash {param : S → String} {body : S → List Step} (hparam : Clear (param s))
    (hbody : BalancedSteps (body s)) : (hashEmitter param body).IsSafe s where
  includes := List.forall_mem_singleton.2 (isFragment_ofList (by decide))
  balanced slot emit he := by
    have hf := clear_hashFunction hh hparam
    have hspace : IsFragment "std" := isFragment_ofList (by decide)
    have hhash : Clear "hash" := clear_fixed (by rfl)
    cases slot with
    | decls =>
      cases he
      exact balancedSteps_specialization hh hspace hhash (by simpa using hf)
    | defs =>
      cases he
      exact balancedSteps_one
        (balanced_inSpace (by simpa using hspace) (balancedSteps_memberDef hh hf hbody))
    | memberDecls | memberDefs => cases he

theorem isSafe_json {needs : List Include} {param : S → String} {reading writing : S → List Step}
    (hneeds : ∀ i ∈ needs, IsFragment i.path) (hparam : Clear (param s))
    (hreading : BalancedSteps (reading s)) (hwriting : BalancedSteps (writing s)) :
    (jsonEmitter needs param reading writing).IsSafe s where
  includes := List.forall_mem_cons.2 ⟨isFragment_ofList (by decide), hneeds⟩
  balanced slot emit he := by
    have hfrom := clear_fromJson hh
    have hto := clear_toJson hh hparam
    have hspace : IsFragment "nlohmann" := isFragment_ofList (by decide)
    have hserializer : Clear "adl_serializer" := clear_fixed (by rfl)
    cases slot with
    | decls =>
      cases he
      exact balancedSteps_specialization hh hspace hserializer (by simpa using ⟨hfrom, hto⟩)
    | defs =>
      cases he
      have hbody :=
        ((balancedSteps_memberDef hh hfrom hreading).append (balancedSteps_one balanced_blank)).append
        (balancedSteps_memberDef hh hto hwriting)
      exact balancedSteps_one (balanced_inSpace (by simpa using hspace) hbody)
    | memberDecls | memberDefs => cases he

theorem isSafe_arbitrary {generator : S → String} (hgenerator : Clear (generator s)) :
    (arbitraryEmitter generator).IsSafe s where
  includes := List.forall_mem_singleton.2 (isFragment_ofList (by decide))
  balanced slot emit he := by
    have hf := clear_arbitraryFunction hh
    have hspace : IsFragment "rc" := isFragment_ofList (by decide)
    have harbitrary : Clear "Arbitrary" := clear_fixed (by rfl)
    cases slot with
    | decls =>
      cases he
      exact balancedSteps_specialization hh hspace harbitrary (by simpa using hf)
    | defs =>
      cases he
      have hline : Clear ("return " ++ generator s ++ ";") :=
        clear_phrase (.fixed _) [.code hgenerator, .fixed _] (by rfl)
      have hbody := balancedSteps_memberDef hh hf (balancedSteps_line hline)
      exact balancedSteps_one (balanced_inSpace (by simpa using hspace) hbody)
    | memberDecls | memberDefs => cases he

theorem isSafe_fmt {needs : List Include} {param : S → String} {body : S → List Step}
    (hneeds : ∀ i ∈ needs, IsFragment i.path) (hparam : Clear (param s))
      (hbody : BalancedSteps (body s)) :
    (fmtEmitter needs param body).IsSafe s where
  includes := by
    have hstring : IsFragment "string" := isFragment_ofList (by decide)
    have hstream : IsFragment "ostream" := isFragment_ofList (by decide)
    have hformat : IsFragment "fmt/format.h" := isFragment_ofList (by decide)
    exact List.forall_mem_cons.2 ⟨hstring, List.forall_mem_cons.2
      ⟨hstream, List.forall_mem_cons.2 ⟨hformat, hneeds⟩⟩⟩
  balanced slot emit he := by
    have hformat := clear_formatFunction hh hparam
    have hstream := clear_streamFunction hh hparam
    have hline : Clear "return s << fmt::to_string(x);" := clear_fixed (by rfl)
    cases slot with
    | decls =>
      cases he
      exact balancedSteps_one (balanced_inSpace hh.space
        (balancedSteps_cons (balanced_declare hformat)
          (balancedSteps_one (balanced_declare hstream))))
    | defs =>
      cases he
      exact balancedSteps_one
        (balanced_inSpace hh.space (balancedSteps_cons (balanced_define hformat hbody)
        (balancedSteps_cons balanced_blank
          (balancedSteps_one (balanced_define hstream (balancedSteps_line hline))))))
    | memberDecls | memberDefs => cases he

/-! ### The outline -/

omit hh in
/-- Features together are as safe as each. -/
theorem balancedSteps_emitAll {r : Registry S} (hr : ∀ f e, r.get? f = some e → e.IsSafe s)
    (slot : Slot) :
    BalancedSteps (r.emitAll slot s) := by
  refine balancedSteps_flatMap fun emit hemit => balancedSteps_cons balanced_blank ?_
  obtain ⟨e, he, hslot⟩ := List.mem_filterMap.1 hemit
  obtain ⟨f, -, hf⟩ := List.mem_filterMap.1 he
  exact (hr f e hf).balanced slot emit hslot

omit hh

/-- How a kind is written is safe for a spec. -/
structure Renderer.IsSafe (r : Renderer S) (s : S) : Prop where
  head : IsSound (HasHead.head s)
  emitters : ∀ f e, r.registry.get? f = some e → e.IsSafe s
  intrinsic : ∀ i ∈ r.intrinsic s, IsFragment i.path
  type : BalancedSteps (r.type s)
  members : BalancedSteps (r.members s)

theorem mem_extend {i : Include} {is : List Include} : ∀ {l : IncludeList},
    i ∈ (l.extend is).toList → i ∈ l.toList ∨ i ∈ is := by
  induction is with
  | nil => exact fun h => .inl h
  | cons j is ih =>
    intro l h
    rcases ih (show i ∈ ((l.add j).extend is).toList from h) with h | h
    · rw [IncludeList.add] at h
      split at h
      · exact .inl h
      · rcases List.mem_append.1 h with h | h
        · exact .inl h
        · exact .inr (List.mem_cons.2 (.inl (List.mem_singleton.1 h)))
    · exact .inr (List.mem_cons_of_mem _ h)

theorem mem_ofList {i : Include} {is : List Include} (h : i ∈ (IncludeList.ofList is).toList) :
    i ∈ is := (mem_extend h).resolve_left (by simp [IncludeList.empty])

namespace Renderer.IsSafe

variable {r : Renderer S} (hr : r.IsSafe s)
include hr

theorem includes : ∀ i ∈ r.registry.headerIncludes s ++ r.registry.sourceIncludes s,
    IsFragment i.path := by
  intro i hi
  have hemitter : ∃ e ∈ r.registry.enabled s, i ∈ e.headerIncludes ++ e.sourceIncludes := by
    simp only [Registry.headerIncludes, Registry.sourceIncludes, List.mem_append,
      List.mem_flatMap] at hi ⊢
    rcases hi with ⟨e, he, hi⟩ | ⟨e, he, hi⟩
    · exact ⟨e, he, .inl hi⟩
    · exact ⟨e, he, .inr hi⟩
  obtain ⟨e, he, hi⟩ := hemitter
  obtain ⟨f, -, hf⟩ := List.mem_filterMap.1 he
  exact (hr.emitters f e hf).includes i hi

theorem sourceIncludes : ∀ i ∈ (r.sourceIncludes s).toList, IsFragment i.path := by
  intro i hi
  rcases mem_extend hi with hi | hi
  · exact hr.head.sourceIncludes i (mem_ofList hi)
  · exact hr.includes i (List.mem_append_right _ hi)

theorem headerIncludes : ∀ i ∈ (r.headerIncludes s).toList, IsFragment i.path := by
  have hown : ∀ i ∈ (((IncludeList.ofList (HasHead.head s).includes).extend (r.intrinsic s)).extend
      (r.registry.headerIncludes s)).toList, IsFragment i.path := fun i hi => by
    rcases mem_extend hi with hi | hi
    · rcases mem_extend hi with hi | hi
      · exact hr.head.includes i (mem_ofList hi)
      · exact hr.intrinsic i hi
    · exact hr.includes i (List.mem_append_left _ hi)
  intro i hi
  rw [Renderer.headerIncludes] at hi
  split at hi
  · exact (mem_extend hi).elim (hown i) (hr.sourceIncludes i)
  · exact hown i hi

theorem definitions : BalancedSteps (r.definitions s) := by
  rw [Renderer.definitions]
  refine BalancedSteps.append ?_ (balancedSteps_emitAll hr.emitters .defs)
  split
  · exact balancedSteps_cons balanced_blank (balancedSteps_one (balanced_inSpace hr.head.space
      (hr.members.append (balancedSteps_emitAll hr.emitters .memberDefs))))
  · exact balancedSteps_nil

theorem typeSection : BalancedSteps (r.typeSection s) := by
  refine BalancedSteps.append
    (BalancedSteps.append ?_ (balancedSteps_map fun text _ => balanced_doc text)) hr.type
  split
  · exact balancedSteps_nil
  · refine balancedSteps_one (balanced_spaced (balancedSteps_map fun d hd => balanced_semicolon ?_))
    exact endsInCode_text (clear_bareDeclaration (hr.head.forwards d hd))

theorem header : BalancedSteps (r.header s) := by
  have hincludes : BalancedSteps (if (r.headerIncludes s).isEmpty then []
      else [.spaced [.includes (r.headerIncludes s)]]) := by
    split
    · exact balancedSteps_nil
    · exact balancedSteps_one
        (balanced_spaced (balancedSteps_one (balanced_includes hr.headerIncludes)))
  have hpost : BalancedSteps (if (HasHead.head s).postIncludes.isEmpty then []
      else [.blank, .includes (IncludeList.ofList (HasHead.head s).postIncludes)]) := by
    split
    · exact balancedSteps_nil
    · exact balancedSteps_cons balanced_blank (balancedSteps_one (balanced_includes fun i hi =>
        hr.head.postIncludes i (mem_ofList hi)))
  have hgeneric : BalancedSteps (if (HasHead.head s).isGeneric then r.definitions s else []) := by
    split
    · exact hr.definitions
    · exact balancedSteps_nil
  exact (((hincludes.append
    (balancedSteps_one (balanced_inSpace hr.head.space hr.typeSection))).append
    hpost).append (balancedSteps_emitAll hr.emitters .decls)).append hgeneric

theorem source : BalancedSteps (r.source s) := by
  rw [Renderer.source]
  split
  · exact balancedSteps_nil
  · exact balancedSteps_cons (balanced_includes hr.sourceIncludes) hr.definitions

end Renderer.IsSafe

end Render

end TypeGen
