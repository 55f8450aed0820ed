import TypeGen.Proofs.Code.Wording
import TypeGen.Proofs.Render.Containing
import TypeGen.Proofs.Render.Directives
import TypeGen.Render.Code

/-!
Wording of headers and sources. All that they are made of is worded, whatever the fragments of the spec
have in common that a text has on account of its parts. Two places are left out: forward declarations,
and the type itself, where a struct labels its private members and an enum lists its values.
-/

namespace TypeGen.Code.Composes

variable {N : String → Prop} (hN : Composes N)
include hN

theorem number (i : Nat) : N (toString i) :=
  hN.plain fun h => absurd (Render.isWordChar_toString i '\n' h) (by decide)

theorem freshVariable (params : List String) {stem : String} (h : N stem) :
    N (Render.freshVariable params stem) := by
  rw [Render.freshVariable]
  split
  · split
    · exact hN.append.2 ⟨h, hN.number _⟩
    · exact h
  · exact h

end TypeGen.Code.Composes

namespace TypeGen.Render

open TypeGen.Code TypeGen.Spec TypeGen.Text

section Shared

variable {N D : String → Prop} (hN : Composes N) {S : Type} [HasHead S] {h : Head}
  (hh : ∀ t ∈ h.fragments, N t)

/-! ### Names -/

include hh in
theorem worded_head : N h.name ∧ (∀ n ∈ h.space, N n) ∧ (∀ t ∈ h.params, N t) ∧
    ∀ is ∈ [h.includes, h.sourceIncludes, h.postIncludes], ∀ i ∈ is, N i.path := by
  simp only [Spec.Head.fragments, List.forall_mem_append, List.forall_mem_cons, List.forall_mem_map,
    Option.mem_toList] at hh
  obtain ⟨⟨⟨⟨hname, hspace⟩, hparams⟩, -⟩, ⟨hincludes, hsource⟩, hpost⟩ := hh
  exact ⟨hname, hspace, hparams, by simpa using ⟨hincludes, hsource, hpost⟩⟩

include hN hh

theorem worded_unqualified : N (unqualified h) := by
  obtain ⟨hname, -, hparams, -⟩ := worded_head hh
  rw [unqualified, templateArgs, hN.append]
  refine ⟨hname, ?_⟩
  split
  · exact hN.plain (by simp)
  · simpa [hN.append, hN.plain] using hN.joinWith (by simp) hparams

theorem worded_qualified : N (qualified h) := by
  obtain ⟨-, hspace, -, -⟩ := worded_head hh
  have hname := worded_unqualified hN hh
  rw [qualified]
  split
  next space hs => simpa [hN.append, hN.plain, hname] using hspace space hs
  next => simpa [hN.append, hN.plain] using hname

omit hN in
theorem worded_memberDef {f : Function} {body : List Step} (hf : ∀ t ∈ f.texts, N t)
    (hbody : AllOf (Step.IsWorded N D) body) : AllOf (Step.IsWorded N D) (memberDef h f body) := by
  obtain ⟨-, -, hparams, -⟩ := worded_head hh
  exact ⟨hparams, ⟨hf, hbody⟩, trivial⟩

theorem worded_specialization {space template : String} {members : List Function} (hspace : N space)
    (htemplate : N template) (hmembers : ∀ f ∈ members, ∀ t ∈ f.texts, N t) :
    AllOf (Step.IsWorded N D) (specialization h space template members) := by
  obtain ⟨-, -, hparams, -⟩ := worded_head hh
  have hname : N (template ++ "<" ++ qualified h ++ ">") := by
    simp [hN.append, hN.plain, htemplate, worded_qualified hN hh]
  refine ⟨⟨?_, ⟨?_, ?_⟩, trivial⟩, trivial⟩
  · simpa [Step.IsWorded, Step.texts] using hspace
  · simpa [Step.IsWorded, Step.texts] using ⟨hname, hparams⟩
  · exact allOf_iff.2 (List.forall_mem_map.2 hmembers)

/-! ### Features -/

omit [HasHead S] hh in
theorem worded_assignKey (key : String) {value : String} (hvalue : N value) :
    (assignKey key value).All (Step.IsWorded N D) :=
  worded_line (by simp [hN.append, hN.plain, hN.literal, hvalue]) (by decide)

/-- What an emitter contributes to the code of a spec is worded. -/
structure Emitter.IsWorded (N D : String → Prop) (e : Emitter S) (s : S) : Prop where
  includes : ∀ i ∈ e.headerIncludes ++ e.sourceIncludes, N i.path
  steps : ∀ slot emit, e.emit slot = some emit → AllOf (Step.IsWorded N D) (emit s)

end Shared

section Emitters

variable {N D : String → Prop} (hN : Composes N) {S : Type} [HasHead S] {s : S}
  (hh : ∀ t ∈ (HasHead.head s).fragments, N t)
include hN hh

theorem worded_comparisonEmitter {needs : List Include} {ops : List String}
    {body : S → String → List Step} (hneeds : ∀ i ∈ needs, N i.path) (hops : ∀ op ∈ ops, N op)
    (hbody : ∀ op ∈ ops, AllOf (Step.IsWorded N D) (body s op)) :
    (comparisonEmitter needs ops body).IsWorded N D s where
  includes := by simpa [comparisonEmitter] using hneeds
  steps slot emit he := by
    have htexts : ∀ op ∈ ops, ∀ t ∈ (comparison (HasHead.head s) op).texts, N t := by
      intro op hop
      simp [forall_mem_texts, comparison, Function.named, hN.append, hN.plain,
        worded_unqualified hN hh, hops op hop]
    cases slot with
    | memberDecls => cases he; exact allOf_iff.2 (List.forall_mem_map.2 htexts)
    | memberDefs =>
      cases he
      refine ⟨⟨rfl, allOfItems_iff.2 (List.forall_mem_map.2 fun op hop => ?_)⟩, trivial⟩
      exact worded_memberDef hh (htexts op hop) (hbody op hop)
    | decls | defs => cases he

theorem worded_hashEmitter {param : S → String} {body : S → List Step} (hparam : N (param s))
    (hbody : AllOf (Step.IsWorded N D) (body s)) : (hashEmitter param body).IsWorded N D s where
  includes := by simp [hashEmitter, Include.ofSystem, hN.plain]
  steps slot emit he := by
    have hname := worded_qualified hN hh
    have hspace : N "std" := hN.plain (by simp)
    have htexts : ∀ t ∈ (hashFunction (HasHead.head s) (param s)).texts, N t := by
      simp [forall_mem_texts, hashFunction, Function.named, hN.append, hN.plain, hname, hparam]
    cases slot with
    | decls =>
      cases he
      exact worded_specialization hN hh hspace (hN.plain (by simp)) (by simpa using htexts)
    | defs =>
      cases he
      exact ⟨⟨by simpa [Step.IsWorded, Step.texts] using hspace, worded_memberDef hh htexts hbody⟩,
        trivial⟩
    | memberDecls | memberDefs => cases he

theorem worded_jsonEmitter {needs : List Include} {param : S → String}
    {reading writing : S → List Step} (hneeds : ∀ i ∈ needs, N i.path) (hparam : N (param s))
    (hreading : AllOf (Step.IsWorded N D) (reading s))
    (hwriting : AllOf (Step.IsWorded N D) (writing s)) :
    (jsonEmitter needs param reading writing).IsWorded N D s where
  includes := by simpa [jsonEmitter, Include.ofSystem, hN.plain] using hneeds
  steps slot emit he := by
    have hname := worded_qualified hN hh
    have hspace : N "nlohmann" := hN.plain (by simp)
    have hfrom : ∀ t ∈ (fromJson (HasHead.head s)).texts, N t := by
      simp [forall_mem_texts, fromJson, Function.named, hN.append, hN.plain, hname]
    have hto : ∀ t ∈ (toJson (HasHead.head s) (param s)).texts, N t := by
      simp [forall_mem_texts, toJson, Function.named, hN.append, hN.plain, hname, hparam]
    cases slot with
    | decls =>
      cases he
      exact worded_specialization hN hh hspace (hN.plain (by simp)) (by simpa using ⟨hfrom, hto⟩)
    | defs =>
      cases he
      refine ⟨⟨by simpa [Step.IsWorded, Step.texts] using hspace, ?_⟩, trivial⟩
      refine allOf_append.2 ⟨allOf_append.2 ⟨worded_memberDef hh hfrom hreading, ?_⟩,
        worded_memberDef hh hto hwriting⟩
      exact ⟨List.forall_mem_nil _, trivial⟩
    | memberDecls | memberDefs => cases he

theorem worded_arbitraryEmitter {generator : S → String} (hgenerator : N (generator s)) :
    (arbitraryEmitter generator).IsWorded N D s where
  includes := by simp [arbitraryEmitter, Include.ofSystem, hN.plain]
  steps slot emit he := by
    have hname := worded_qualified hN hh
    have hspace : N "rc" := hN.plain (by simp)
    have htexts : ∀ t ∈ (arbitraryFunction (HasHead.head s)).texts, N t := by
      simp [forall_mem_texts, arbitraryFunction, Function.named, hN.append, hN.plain, hname]
    cases slot with
    | decls =>
      cases he
      exact worded_specialization hN hh hspace (hN.plain (by simp)) (by simpa using htexts)
    | defs =>
      cases he
      refine ⟨⟨by simpa [Step.IsWorded, Step.texts] using hspace, worded_memberDef hh htexts ?_⟩, trivial⟩
      exact ⟨worded_line (by simp [hN.append, hN.plain, hgenerator]) (by decide), trivial⟩
    | memberDecls | memberDefs => cases he

theorem worded_fmtEmitter {needs : List Include} {param : S → String} {body : S → List Step}
    (hneeds : ∀ i ∈ needs, N i.path) (hparam : N (param s))
    (hbody : AllOf (Step.IsWorded N D) (body s)) : (fmtEmitter needs param body).IsWorded N D s where
  includes := by simpa [fmtEmitter, Include.ofSystem, hN.plain] using hneeds
  steps slot emit he := by
    obtain ⟨-, hspace, hparams, -⟩ := worded_head hh
    have hformat : ∀ t ∈ (formatFunction (HasHead.head s) (param s)).texts, N t := by
      simpa [forall_mem_texts, formatFunction, Function.named, hN.append, hN.plain, hparam] using hparams
    have hstream : ∀ t ∈ (streamFunction (HasHead.head s) (param s)).texts, N t := by
      simpa [forall_mem_texts, streamFunction, Function.named, hN.append, hN.plain, hparam] using hparams
    have hinside : ∀ t ∈ (HasHead.head s).space.toList, N t := by simpa using hspace
    cases slot with
    | decls => cases he; exact ⟨⟨hinside, hformat, hstream, trivial⟩, trivial⟩
    | defs =>
      cases he
      refine ⟨⟨hinside, ⟨hformat, hbody⟩, List.forall_mem_nil _, ⟨hstream, ?_⟩, trivial⟩, trivial⟩
      exact ⟨hN.worded_fixed (by simp) (by decide), trivial⟩
    | memberDecls | memberDefs => cases he

end Emitters

/-! ### The outline -/

/-- How a kind is written is worded for a spec, apart from its type. -/
structure Renderer.IsWorded (N D : String → Prop) {S : Type} [HasHead S] (r : Renderer S) (s : S) :
    Prop where
  head : ∀ t ∈ (HasHead.head s).fragments, N t
  emitters : ∀ f e, r.registry.get? f = some e → e.IsWorded N D s
  intrinsic : ∀ i ∈ r.intrinsic s, N i.path
  members : AllOf (Step.IsWorded N D) (r.members s)

namespace Renderer

variable {S : Type} [HasHead S]

/-- What follows the type in a header. -/
def trailer (r : Renderer S) (s : S) : List Step :=
  let h := HasHead.head s
  (if h.postIncludes.isEmpty then [] else [.blank, .includes (IncludeList.ofList h.postIncludes)]) ++
    r.registry.emitAll .decls s ++ (if h.isGeneric then r.definitions s else [])

theorem header_eq (r : Renderer S) (s : S) : r.header s = r.includeBlock s ++
    .inSpace (HasHead.head s).space (r.typeSection s) :: r.trailer s := by
  simp [header, includeBlock, trailer]

namespace IsWorded

variable {N D : String → Prop} {r : Renderer S} {s : S} (hr : r.IsWorded N D s)
include hr

theorem emitAll (slot : Slot) : AllOf (Step.IsWorded N D) (r.registry.emitAll slot s) := by
  refine allOf_flatMap.2 fun emit hemit => ⟨List.forall_mem_nil _, ?_⟩
  obtain ⟨e, he, hslot⟩ := List.mem_filterMap.1 hemit
  obtain ⟨f, -, hf⟩ := List.mem_filterMap.1 he
  exact (hr.emitters f e hf).steps slot emit hslot

theorem needs {includes : Emitter S → List Include}
    (h : ∀ e, ∀ i ∈ includes e, i ∈ e.headerIncludes ++ e.sourceIncludes) :
    ∀ i ∈ r.registry.needs s includes, N i.path := by
  intro i hi
  rw [← Registry.flatMap_includes] at hi
  obtain ⟨e, he, hi⟩ := List.mem_flatMap.1 hi
  obtain ⟨f, -, hf⟩ := List.mem_filterMap.1 he
  exact (hr.emitters f e hf).includes i (h e i hi)

theorem definitionNeeds : ∀ i ∈ r.definitionNeeds s, N i.path := by
  obtain ⟨-, -, -, hincludes⟩ := worded_head hr.head
  refine List.forall_mem_append.2 ⟨hincludes _ (by simp), hr.needs fun e i hi => ?_⟩
  exact List.mem_append_right _ hi

theorem headerNeeds : ∀ i ∈ r.headerNeeds s, N i.path := by
  obtain ⟨-, -, -, hincludes⟩ := worded_head hr.head
  have hfeatures : ∀ i ∈ r.registry.needs s (·.headerIncludes), N i.path :=
    hr.needs fun e i hi => List.mem_append_left _ hi
  intro i hi
  simp only [Renderer.headerNeeds, List.mem_append] at hi
  rcases hi with ((hi | hi) | hi) | hi
  · exact hincludes _ (by simp) i hi
  · exact hr.intrinsic i hi
  · exact hfeatures i hi
  · split at hi
    · exact hr.definitionNeeds i (List.mem_eraseDups.1 hi)
    · cases hi

omit [HasHead S] hr in
theorem includes {l : IncludeList} {is : List Include} (hl : l.toList = is.eraseDups)
    (h : ∀ i ∈ is, N i.path) : AllOf (Step.IsWorded N D) [.includes l] := by
  refine ⟨List.forall_mem_map.2 fun i hi => h i ?_, trivial⟩
  rw [hl] at hi
  exact List.mem_eraseDups.1 hi

theorem includeBlock : AllOf (Step.IsWorded N D) (r.includeBlock s) := by
  rw [Renderer.includeBlock]
  split
  · trivial
  · exact ⟨⟨List.forall_mem_nil _, IsWorded.includes (r.toList_headerIncludes s) hr.headerNeeds⟩,
      trivial⟩

theorem space : ∀ t ∈ (HasHead.head s).space.toList, N t := by
  obtain ⟨-, hspace, -, -⟩ := worded_head hr.head
  simpa using hspace

theorem definitions : AllOf (Step.IsWorded N D) (r.definitions s) := by
  refine allOf_append.2 ⟨?_, hr.emitAll .defs⟩
  split
  · exact ⟨List.forall_mem_nil _, ⟨hr.space, allOf_append.2 ⟨hr.members, hr.emitAll .memberDefs⟩⟩,
      trivial⟩
  · trivial

theorem trailer : AllOf (Step.IsWorded N D) (r.trailer s) := by
  obtain ⟨-, -, -, hincludes⟩ := worded_head hr.head
  refine allOf_append.2 ⟨allOf_append.2 ⟨?_, hr.emitAll .decls⟩, ?_⟩
  · split
    · trivial
    · exact ⟨List.forall_mem_nil _,
        IsWorded.includes (IncludeList.toList_ofList _) (hincludes _ (by simp))⟩
  · split
    · exact hr.definitions
    · trivial

theorem source : AllOf (Step.IsWorded N D) (r.source s) := by
  rw [Renderer.source]
  split
  · trivial
  · exact ⟨(IsWorded.includes (r.toList_sourceIncludes s) hr.definitionNeeds).1, hr.definitions⟩

end IsWorded

end Renderer

/-! ### Structs -/

namespace StructSpec

variable {N D : String → Prop} {s : StructSpec}

/-- The body of the type, up to the pointers behind the accessors. -/
def publicSteps (registry : Registry StructSpec) (s : StructSpec) : List Step :=
  (if s.fields.isEmpty then [] else [.line (s.name ++ "() = delete;"), .declare (constructor s)]) ++
    registry.emitAll .memberDecls s ++ (if s.fields.isEmpty then [] else [.blank]) ++
    s.fields.flatMap (fieldSteps s)

theorem typeSteps_eq (registry : Registry StructSpec) (s : StructSpec) : typeSteps registry s =
    [.struct s.name s.params false
      (publicSteps registry s ++ if s.hasIndirect then privateSteps s else [])] := rfl

section

variable (hN : Composes N) (hs : ∀ t ∈ s.fragments, N t)

include hs in
theorem worded_parts : (∀ t ∈ s.toHead.fragments, N t) ∧ ∀ f ∈ s.fields, N f.name ∧ N f.type := by
  obtain ⟨hhead, hfields⟩ := List.forall_mem_append.1 hs
  exact ⟨hhead, fun f hf => by simpa using List.forall_mem_flatMap.1 hfields f hf⟩

include hN hs

theorem worded_constructor : ∀ t ∈ (constructor s).texts, N t := by
  obtain ⟨hhead, hfields⟩ := worded_parts hs
  have hname := worded_unqualified hN hhead
  have hinitial : ∀ f ∈ s.fields, N (initial f) := by
    intro f hf
    rw [initial]
    split <;> simp [hN.append, hN.plain, hfields f hf]
  obtain ⟨hspec, -⟩ := worded_head hhead
  simp only [forall_mem_texts, constructor, Function.named]
  refine ⟨hspec, by simpa using hname, by simp, by simp, ?_, ?_⟩
  · simpa [hN.append, hN.plain] using fun f hf => (hfields f hf).symm
  · simpa using fun f hf => ⟨(hfields f hf).1, hinitial f hf⟩

theorem worded_accessor {f : StructField} (hf : f ∈ s.fields) : ∀ t ∈ (accessor s f).texts, N t := by
  obtain ⟨hhead, hfields⟩ := worded_parts hs
  simp [forall_mem_texts, accessor, Function.named, hN.append, hN.plain, hfields f hf,
    worded_unqualified hN hhead]

theorem worded_access {object : String} (hobject : N object) {f : StructField} (hf : f ∈ s.fields) :
    N (access object f) := by
  obtain ⟨-, hfields⟩ := worded_parts hs
  rw [access]
  split <;> simp [hN.append, hN.plain, hfields f hf, hobject]

theorem worded_publicSteps (hD : ∀ f ∈ s.fields, ∀ d ∈ f.doc, D d) {registry : Registry StructSpec}
    (hr : AllOf (Step.IsWorded N D) (registry.emitAll .memberDecls s)) :
    AllOf (Step.IsWorded N D) (publicSteps registry s) := by
  obtain ⟨hhead, hfields⟩ := worded_parts hs
  obtain ⟨hname, -⟩ := worded_head hhead
  refine allOf_append.2 ⟨allOf_append.2 ⟨allOf_append.2 ⟨?_, hr⟩, ?_⟩, allOf_flatMap.2 fun f hf => ?_⟩
  · split
    · trivial
    · refine ⟨?_, worded_constructor hN hs, trivial⟩
      exact worded_line (by simp [hN.append, hN.plain, hname]) (by decide)
  · split
    · trivial
    · exact ⟨List.forall_mem_nil _, trivial⟩
  · refine allOf_append.2 ⟨allOf_iff.2 (List.forall_mem_map.2 fun d hd => ?_), ?_⟩
    · exact hD f hf d (by simpa using hd)
    · split
      · exact ⟨worded_accessor hN hs hf, trivial⟩
      · exact ⟨worded_line (by simp [hN.append, hN.plain, hfields f hf]) (by decide), trivial⟩

theorem worded_pointers : AllOf (Step.IsWorded N D) ((s.fields.filter (·.indirect)).map fun f =>
    .line ("std::shared_ptr<" ++ f.type ++ "> " ++ f.name ++ ";")) := by
  obtain ⟨-, hfields⟩ := worded_parts hs
  refine allOf_iff.2 (List.forall_mem_map.2 fun f hf => ?_)
  exact worded_line (by simp [hN.append, hN.plain, hfields f (List.mem_of_mem_filter hf)]) (by decide)

theorem worded_memberSteps : AllOf (Step.IsWorded N D) (memberSteps s) := by
  obtain ⟨hhead, hfields⟩ := worded_parts hs
  refine allOf_append.2 ⟨worded_memberDef hhead (worded_constructor hN hs) trivial,
    allOf_flatMap.2 fun f hf => ⟨List.forall_mem_nil _, ?_⟩⟩
  have hf := List.mem_of_mem_filter hf
  refine worded_memberDef hhead (worded_accessor hN hs hf) ?_
  exact ⟨worded_line (by simp [hN.append, hN.plain, hfields f hf]) (by decide), trivial⟩

theorem worded_tie {object : String} (hobject : N object) : N (tie s object) := by
  have hfields : N (joinWith ", " (s.fields.map (access object))) :=
    hN.joinWith (by simp) (List.forall_mem_map.2 fun f hf => worded_access hN hs hobject hf)
  simpa [tie, hN.append, hN.plain] using hfields

theorem worded_comparisonBody {op : String} (hop : N op) :
    AllOf (Step.IsWorded N D) (comparisonBody s op) := by
  have hthis := worded_tie hN hs (hN.plain (by simp) : N "this->")
  have hother := worded_tie hN hs (hN.plain (by simp) : N "other.")
  exact ⟨worded_line (by simp [hN.append, hN.plain, hop, hthis, hother]) (by decide), trivial⟩

theorem worded_hashBody : AllOf (Step.IsWorded N D) (hashBody s) := by
  obtain ⟨-, hfields⟩ := worded_parts hs
  refine allOf_append.2 ⟨allOf_append.2 ⟨?_, allOf_iff.2 (List.forall_mem_map.2 fun f hf => ?_)⟩, ?_⟩
  · exact ⟨hN.worded_fixed (by simp) (by decide), trivial⟩
  · have haccess := worded_access hN hs (hN.plain (by simp) : N "x.") hf
    exact worded_line (by simp [hN.append, hN.plain, hfields f hf, haccess]) (by decide)
  · exact ⟨hN.worded_fixed (by simp) (by decide), trivial⟩

theorem worded_readBody : AllOf (Step.IsWorded N D) (readBody s) := by
  obtain ⟨hhead, hfields⟩ := worded_parts hs
  have harguments : N (joinWith ", " (s.fields.map jsonArgument)) := by
    refine hN.joinWith (by simp) (List.forall_mem_map.2 fun f hf => ?_)
    simp [jsonArgument, hN.append, hN.plain, hN.literal, hfields f hf]
  exact ⟨worded_line (by simp [hN.append, hN.plain, worded_qualified hN hhead, harguments]) (by decide), trivial⟩

theorem worded_writeBody : AllOf (Step.IsWorded N D) (writeBody s) := by
  refine allOf_iff.2 (List.forall_mem_map.2 fun entry hentry => ?_)
  have hvalue : N entry.2 := by
    rcases List.mem_cons.1 hentry with rfl | hentry
    · exact hN.literal s.name
    · obtain ⟨f, hf, rfl⟩ := List.mem_map.1 hentry
      exact worded_access hN hs (hN.plain (by simp)) hf
  exact worded_assignKey hN entry.1 hvalue

theorem worded_generator : N (generator s) := by
  obtain ⟨hhead, hfields⟩ := worded_parts hs
  have harguments : N (joinWith ", " (s.fields.map fun f => "gen::arbitrary<" ++ f.type ++ ">()")) := by
    refine hN.joinWith (by simp) (List.forall_mem_map.2 fun f hf => ?_)
    simp [hN.append, hN.plain, hfields f hf]
  unfold generator
  simp [hN.append, hN.plain, worded_qualified hN hhead, harguments]

theorem worded_fmtBody : AllOf (Step.IsWorded N D) (fmtBody s) := by
  obtain ⟨hhead, hfields⟩ := worded_parts hs
  obtain ⟨hname, -⟩ := worded_head hhead
  refine allOf_append.2 ⟨allOf_append.2 ⟨?_, allOf_iff.2 (List.forall_mem_map.2 fun f hf => ?_)⟩, ?_⟩
  · exact ⟨hN.worded_fixed (by simp) (by decide),
      worded_line (by simp [hN.append, hN.plain, hname]) (by decide), trivial⟩
  · have haccess := worded_access hN hs (hN.plain (by simp) : N "x.") hf
    exact worded_line (by simp [hN.append, hN.plain, hfields f hf, haccess]) (by decide)
  · exact ⟨hN.worded_fixed (by simp) (by decide), hN.worded_fixed (by simp) (by decide), trivial⟩

theorem worded_renderer : renderer.IsWorded N D s := by
  obtain ⟨hhead, -⟩ := worded_parts hs
  have hops : ∀ op ∈ eqOps ++ ordOps, N op := by simp [eqOps, ordOps, hN.plain]
  have hparam : N (constRef s) := by
    simp [constRef, hN.append, hN.plain, worded_qualified hN hhead]
  have hfmt : N (fmtParam s) := by
    simp [fmtParam, hN.append, hN.plain, worded_unqualified hN hhead]
  refine ⟨hhead, fun f e he => ?_, ?_, worded_memberSteps hN hs⟩
  · cases f with
    | eq =>
      cases he
      exact worded_comparisonEmitter hN hhead (by simp [Include.ofSystem, hN.plain])
        (fun op hop => hops op (by simp [hop])) fun op hop =>
          worded_comparisonBody hN hs (hops op (by simp [hop]))
    | ord =>
      cases he
      exact worded_comparisonEmitter hN hhead (by simp [Include.ofSystem, hN.plain])
        (fun op hop => hops op (by simp [hop])) fun op hop =>
          worded_comparisonBody hN hs (hops op (by simp [hop]))
    | hash =>
      cases he
      exact worded_hashEmitter hN hhead hparam (worded_hashBody hN hs)
    | json =>
      cases he
      exact worded_jsonEmitter hN hhead (by simp) hparam (worded_readBody hN hs)
        (worded_writeBody hN hs)
    | rapidcheck => cases he; exact worded_arbitraryEmitter hN hhead (worded_generator hN hs)
    | fmt =>
      cases he
      exact worded_fmtEmitter hN hhead (by simp [Include.ofSystem, hN.plain]) hfmt
        (worded_fmtBody hN hs)
  · intro i hi
    simp only [renderer] at hi
    split at hi
    · rw [List.mem_singleton.1 hi]; exact hN.plain (by simp [Include.ofSystem])
    · cases hi

end

end StructSpec

/-! ### Enums -/

namespace EnumSpec

variable {N D : String → Prop} {s : EnumSpec} (hN : Composes N) (hs : ∀ t ∈ s.fragments, N t)

include hs in
theorem worded_parts : (∀ t ∈ s.toHead.fragments, N t) ∧ ∀ v ∈ s.values, N v.name := by
  obtain ⟨hhead, hvalues⟩ := List.forall_mem_append.1 hs
  exact ⟨hhead, List.forall_mem_map.1 hvalues⟩

include hN hs

theorem worded_enumerator {v : Enumerator} (hv : v ∈ s.values) : N (enumerator s v) := by
  obtain ⟨hhead, hvalues⟩ := worded_parts hs
  simp [enumerator, hN.append, hN.plain, worded_qualified hN hhead, hvalues v hv]

theorem worded_throwUnknownValue : AllOf (Step.IsWorded N D) [throwUnknownValue s] := by
  obtain ⟨hname, -⟩ := worded_head (worded_parts hs).1
  exact ⟨worded_line (by simp [hN.append, hN.plain, hname]) (by decide), trivial⟩

theorem worded_readBody : AllOf (Step.IsWorded N D) (readBody s) := by
  obtain ⟨hname, -⟩ := worded_head (worded_parts hs).1
  refine ⟨?_, ⟨?_, allOfArms_iff.2 (List.forall_mem_map.2 fun v hv => ?_), ?_⟩, trivial⟩
  · exact hN.worded_fixed (by simp) (by decide)
  · simp [Step.IsWorded, Step.texts, hN.append, hN.plain, hN.literal]
  · have henumerator := worded_enumerator hN hs hv
    exact ⟨worded_line (by simp [hN.append, hN.plain, henumerator]) (by decide), trivial⟩
  · exact ⟨worded_line (by simp [hN.append, hN.plain, hname]) (by decide), trivial⟩

/-- A switch with a case for each enumerator. -/
theorem worded_valueSwitch {label : Enumerator → String} {leaves : Bool}
    {body : Enumerator → List Step} (hlabel : ∀ v ∈ s.values, N (label v))
    (hbody : ∀ v ∈ s.values, AllOf (Step.IsWorded N D) (body v)) :
    AllOf (Step.IsWorded N D) [.switch "x" ((s.values.map fun v => .case (label v) leaves (body v)) ++
      [.default false [throwUnknownValue s]])] := by
  have hthrow : AllOf (Step.IsWorded N D) [.default false [throwUnknownValue s]] :=
    ⟨⟨List.forall_mem_nil _, worded_throwUnknownValue hN hs⟩, trivial⟩
  have hcases : AllOf (Step.IsWorded N D) (s.values.map fun v => .case (label v) leaves (body v)) :=
    allOf_iff.2 (List.forall_mem_map.2 fun v hv =>
      ⟨by simpa [Step.IsWorded, Step.texts] using hlabel v hv, hbody v hv⟩)
  exact ⟨⟨by simp [Step.IsWorded, Step.texts, hN.plain], allOf_append.2 ⟨hcases, hthrow⟩⟩, trivial⟩

theorem worded_renderer : renderer.IsWorded N D s := by
  obtain ⟨hhead, hvalues⟩ := worded_parts hs
  obtain ⟨hname, -⟩ := worded_head hhead
  refine ⟨hhead, fun f e he => ?_, by simp [renderer], trivial⟩
  cases f with
  | eq | ord => cases he
  | hash =>
    cases he
    refine worded_hashEmitter hN hhead (worded_qualified hN hhead) ?_
    exact ⟨hN.worded_fixed (by simp) (by decide), trivial⟩
  | json =>
    cases he
    refine worded_jsonEmitter hN hhead (by simp [Include.ofSystem, hN.plain])
      (worded_qualified hN hhead) (worded_readBody hN hs)
      (worded_valueSwitch hN hs (fun v hv => worded_enumerator hN hs hv) fun v _ => ?_)
    exact ⟨worded_line (by simp [hN.append, hN.plain, hN.literal]) (by decide), trivial⟩
  | rapidcheck =>
    cases he
    refine worded_arbitraryEmitter hN hhead ?_
    have henumerators : N (joinWith ", " (s.values.map (enumerator s))) :=
      hN.joinWith (by simp) (List.forall_mem_map.2 fun v hv => worded_enumerator hN hs hv)
    unfold generator
    simp [hN.append, hN.plain, worded_qualified hN hhead, henumerators]
  | fmt =>
    cases he
    refine worded_fmtEmitter hN hhead (by simp [Include.ofSystem, hN.plain]) hname
      (worded_valueSwitch hN hs (fun v hv => ?_) fun v _ => ?_)
    · simp [hN.append, hN.plain, hname, hvalues v hv]
    · exact ⟨worded_line (by simp [hN.append, hN.plain, hN.literal]) (by decide), trivial⟩

end EnumSpec

/-! ### Variants -/

namespace VariantSpec

variable {N D : String → Prop} {s : VariantSpec} (hN : Composes N) (hs : ∀ t ∈ s.fragments, N t)

include hs in
theorem worded_parts : (∀ t ∈ s.toHead.fragments, N t) ∧ ∀ a ∈ s.arms, N a.type ∧ N a.key := by
  obtain ⟨hhead, harms⟩ := List.forall_mem_append.1 hs
  refine ⟨hhead, fun a ha => ?_⟩
  obtain ⟨htype, hkey⟩ := List.forall_mem_cons.1 (List.forall_mem_flatMap.1 harms a ha)
  refine ⟨htype, ?_⟩
  rw [Arm.key]
  cases hk : a.methodKey with
  | none => exact htype
  | some k => exact hkey k (by simp [hk])

include hN

omit hN in
include hs in
theorem worded_name : N s.name := (worded_head (worded_parts hs).1).1

theorem worded_typeVariable : N (typeVariable s) := hN.freshVariable _ (hN.plain (by simp))

theorem worded_returnVariable : N (returnVariable s) := hN.freshVariable _ (hN.plain (by simp))

theorem worded_visitorVariable : N (visitorVariable s) := hN.freshVariable _ (hN.plain (by simp))

include hs

theorem worded_constructor {a : Arm} (ha : a ∈ s.arms) : ∀ t ∈ (constructor s a).texts, N t := by
  obtain ⟨hhead, harms⟩ := worded_parts hs
  simp [forall_mem_texts, constructor, Function.named, hN.append, hN.plain, harms a ha,
    worded_unqualified hN hhead, worded_name hs]

theorem worded_isKey {a : Arm} (ha : a ∈ s.arms) : ∀ t ∈ (isKey s a).texts, N t := by
  obtain ⟨hhead, harms⟩ := worded_parts hs
  simp [forall_mem_texts, isKey, Function.named, hN.append, hN.plain, harms a ha,
    worded_unqualified hN hhead]

theorem worded_requireKey {a : Arm} (ha : a ∈ s.arms) : ∀ t ∈ (requireKey s a).texts, N t := by
  obtain ⟨hhead, harms⟩ := worded_parts hs
  simp [forall_mem_texts, requireKey, Function.named, hN.append, hN.plain, harms a ha,
    worded_unqualified hN hhead]

theorem worded_indexSwitch {index : String} {leaves : Bool} {body : Arm → List Step}
    (hindex : N index) (hbody : ∀ a ∈ s.arms, AllOf (Step.IsWorded N D) (body a)) :
    (indexSwitch s index leaves body).All (Step.IsWorded N D) := by
  have hname := worded_name hs
  refine ⟨by simpa [Step.IsWorded, Step.texts] using hindex, allOf_append.2
    ⟨allOf_iff.2 (List.forall_mem_map.2 fun entry hentry => ⟨?_, ?_⟩), ⟨List.forall_mem_nil _, ?_⟩,
      trivial⟩⟩
  · simpa [Step.IsWorded, Step.texts] using hN.number entry.2
  · exact hbody _ (List.fst_mem_of_mem_zipIdx hentry)
  · unfold throwUnknownIndex
    exact ⟨worded_line (by simp [hN.append, hN.plain, hindex, hname]) (by decide), trivial⟩

/-! #### The type -/

theorem worded_membershipTrait : N (membershipTrait s) := by
  unfold membershipTrait
  simp [hN.append, hN.plain, worded_name hs]

omit hs in
/-- A check that two results of the visitor are of one type. -/
theorem worded_sameReturn {qualifier : String} (hqualifier : N qualifier) {a b : Arm} (ha : N a.type)
    (hb : N b.type) : (sameReturn s qualifier a b).All (Step.IsWorded N D) := by
  have hvisitor : N (visitorVariable s) := worded_visitorVariable hN
  exact worded_line (by simp [hN.append, hN.plain, hN.literal, hvisitor, hqualifier, ha, hb]) (by decide)

theorem worded_visitStep (isConst : Bool) : (visitStep s isConst).All (Step.IsWorded N D) := by
  obtain ⟨-, harms⟩ := worded_parts hs
  have hreturn : N (returnVariable s) := worded_returnVariable hN
  have hvisitor : N (visitorVariable s) := worded_visitorVariable hN
  refine ⟨?_, allOf_append.2 ⟨?_, worded_indexSwitch hN hs (hN.plain (by simp)) fun a ha => ?_, trivial⟩⟩
  · show ∀ t ∈ Function.texts _, N t
    simp [forall_mem_texts, Function.named, hN.append, hN.plain, hreturn, hvisitor]
  · split
    next first rest _ heq =>
      have hmem : ∀ a ∈ first :: rest, N a.type := fun a ha => (harms a (heq ▸ ha)).1
      refine allOf_iff.2 (List.forall_mem_map.2 fun a ha => ?_)
      have hqualifier : N (if isConst then " const &" else " &") := by
        cases isConst <;> exact hN.plain (by simp)
      exact worded_sameReturn hN hqualifier (hmem first (List.mem_cons_self ..))
        (hmem a (List.mem_cons_of_mem _ ha))
    next => trivial
  · exact ⟨worded_line (by simp [hN.append, hN.plain, harms a ha]) (by decide), trivial⟩

theorem worded_memberCheck (method : String) : (memberCheck s method).All (Step.IsWorded N D) := by
  have htrait := worded_membershipTrait hN hs
  have hvariable : N (typeVariable s) := worded_typeVariable hN
  exact worded_line (by simp [hN.append, hN.plain, hN.literal, htrait, hvariable]) (by decide)

theorem worded_hasStep : (hasStep s).All (Step.IsWorded N D) := by
  have hvariable : N (typeVariable s) := worded_typeVariable hN
  refine ⟨?_, worded_memberCheck hN hs "has", ?_, trivial⟩
  · show ∀ t ∈ Function.texts _, N t
    simp [forall_mem_texts, Function.named, hN.plain, hvariable]
  · exact worded_line (by simp [hN.append, hN.plain, hvariable]) (by decide)

theorem worded_getStep (isConst : Bool) : (getStep s isConst).All (Step.IsWorded N D) := by
  have hvariable : N (typeVariable s) := worded_typeVariable hN
  refine ⟨?_, worded_memberCheck hN hs "get", ?_, trivial⟩
  · show ∀ t ∈ Function.texts _, N t
    cases isConst <;> simp [forall_mem_texts, Function.named, hN.append, hN.plain, hvariable]
  · exact worded_line (by simp [hN.append, hN.plain, hvariable]) (by decide)

omit hs in
theorem worded_indexStep : indexStep.All (Step.IsWorded N D) := by
  refine ⟨?_, ?_, trivial⟩
  · show ∀ t ∈ Function.texts _, N t
    simp [forall_mem_texts, Function.named, hN.plain]
  · exact hN.worded_fixed (by simp) (by decide)

theorem worded_traitSteps : AllOf (Step.IsWorded N D) (traitSteps s) := by
  obtain ⟨-, harms⟩ := worded_parts hs
  have htrait := worded_membershipTrait hN hs
  have hvariable : N (typeVariable s) := worded_typeVariable hN
  have htests : N (joinWith " || " ((armTypes s).map fun t =>
      "std::is_same_v<" ++ typeVariable s ++ ", " ++ t ++ ">")) := by
    refine hN.joinWith (by simp) (List.forall_mem_map.2 (List.forall_mem_map.2 fun a ha => ?_))
    simp [hN.append, hN.plain, hvariable, harms a ha]
  refine ⟨by simpa [Step.All, Step.IsWorded, Step.texts] using hvariable, ?_, trivial⟩
  exact worded_line (by simp [hN.append, hN.plain, htrait, htests]) (by decide)

theorem worded_keyDecls : AllOf (Step.IsWorded N D) (keyDecls s) := by
  rw [keyDecls]
  split
  · exact ⟨List.forall_mem_nil _, allOf_flatMap.2 fun a ha =>
      ⟨worded_isKey hN hs ha, worded_requireKey hN hs ha, trivial⟩⟩
  · trivial

theorem worded_typeSteps {registry : Registry VariantSpec}
    (hr : AllOf (Step.IsWorded N D) (registry.emitAll .memberDecls s)) :
    AllOf (Step.IsWorded N D) (typeSteps registry s) := by
  obtain ⟨hhead, harms⟩ := worded_parts hs
  obtain ⟨hname, -, hparams, -⟩ := worded_head hhead
  have hblank : (Step.blank).All (Step.IsWorded N D) := List.forall_mem_nil _
  have hdeleted : (Step.line (s.name ++ "() = delete;")).All (Step.IsWorded N D) :=
    worded_line (by simp [hN.append, hN.plain, hname]) (by decide)
  have hraw : (Step.line (rawType s ++ " raw_variant;")).All (Step.IsWorded N D) := by
    have htypes : N (joinWith ", " (armTypes s)) :=
      hN.joinWith (by simp) (List.forall_mem_map.2 fun a ha => (harms a ha).1)
    exact worded_line (by simp [rawType, hN.append, hN.plain, htypes]) (by decide)
  have hconstructors : AllOf (Step.IsWorded N D) (s.arms.map fun a => .declare (constructor s a)) :=
    allOf_iff.2 (List.forall_mem_map.2 fun a ha => worded_constructor hN hs ha)
  refine ⟨⟨by simpa [Step.IsWorded, Step.texts] using ⟨hname, hparams⟩, ?_⟩, trivial⟩
  simp only [allOf_append]
  exact ⟨⟨⟨⟨⟨⟨⟨⟨hdeleted, trivial⟩, hconstructors⟩, hblank, trivial⟩, worded_traitSteps hN hs⟩,
    hblank, worded_visitStep hN hs true, hblank, worded_visitStep hN hs false, hblank,
    worded_hasStep hN hs, hblank, worded_getStep hN hs true, hblank, worded_getStep hN hs false, hblank,
    worded_indexStep hN, trivial⟩, hr⟩, worded_keyDecls hN hs⟩, hblank, hraw, trivial⟩

theorem worded_memberSteps : AllOf (Step.IsWorded N D) (memberSteps s) := by
  obtain ⟨hhead, harms⟩ := worded_parts hs
  refine ⟨⟨rfl, allOfItems_iff.2 (List.forall_mem_map.2 fun a ha =>
    worded_memberDef hhead (worded_constructor hN hs ha) trivial)⟩, ?_⟩
  rw [keyDefs]
  split
  · refine allOf_flatMap.2 fun a ha => ⟨List.forall_mem_nil _, allOf_append.2
      ⟨worded_memberDef hhead (worded_isKey hN hs ha) ?_, List.forall_mem_nil _,
        worded_memberDef hhead (worded_requireKey hN hs ha) ?_⟩⟩
    · exact ⟨worded_line (by simp [hN.append, hN.plain, harms a ha]) (by decide), trivial⟩
    · exact ⟨worded_line (by simp [hN.append, hN.plain, harms a ha]) (by decide), trivial⟩
  · trivial

/-! #### Features -/

theorem worded_readBody : AllOf (Step.IsWorded N D) (readBody s) := by
  obtain ⟨hhead, harms⟩ := worded_parts hs
  have hname := worded_name hs
  refine ⟨?_, ⟨?_, allOfArms_iff.2 (List.forall_mem_map.2 fun a ha => ?_), ?_⟩, trivial⟩
  · exact hN.worded_fixed (by simp) (by decide)
  · simp [Step.IsWorded, Step.texts, hN.append, hN.plain, hN.literal]
  · have hname' := worded_qualified hN hhead
    exact ⟨worded_line (by simp [hN.append, hN.plain, harms a ha, hname']) (by decide), trivial⟩
  · exact ⟨worded_line (by simp [hN.append, hN.plain, hname]) (by decide), trivial⟩

theorem worded_writeBody : AllOf (Step.IsWorded N D) (writeBody s) := by
  obtain ⟨-, harms⟩ := worded_parts hs
  refine ⟨?_, worded_indexSwitch hN hs (hN.plain (by simp)) fun a ha => ?_, trivial⟩
  · exact worded_assignKey hN typeKey (hN.literal s.name)
  · have hvalue : N ("x.template get<" ++ a.type ++ ">()") := by
      simp [hN.append, hN.plain, harms a ha]
    exact ⟨worded_assignKey hN "type" (hN.literal a.jsonKey), worded_assignKey hN "value" hvalue, trivial⟩

theorem worded_fmtBody : AllOf (Step.IsWorded N D) (fmtBody s) := by
  obtain ⟨-, harms⟩ := worded_parts hs
  refine ⟨?_, worded_indexSwitch hN hs (hN.plain (by simp)) fun a ha => ?_, ?_, trivial⟩
  · exact hN.worded_fixed (by simp) (by decide)
  · exact ⟨worded_line (by simp [hN.append, hN.plain, hN.literal, harms a ha]) (by decide), trivial⟩
  · exact hN.worded_fixed (by simp) (by decide)

theorem worded_generator : N (generator s) := by
  obtain ⟨hhead, harms⟩ := worded_parts hs
  have halternatives : N (joinWith ", " (s.arms.map fun a => "gen::construct<" ++ qualified s.toHead ++
      ">(gen::arbitrary<" ++ a.type ++ ">())")) := by
    refine hN.joinWith (by simp) (List.forall_mem_map.2 fun a ha => ?_)
    simp [hN.append, hN.plain, harms a ha, worded_qualified hN hhead]
  unfold generator
  simp [hN.append, hN.plain, halternatives]

theorem worded_renderer : renderer.IsWorded N D s := by
  obtain ⟨hhead, -⟩ := worded_parts hs
  have hops : ∀ op ∈ eqOps ++ ordOps, N op := by simp [eqOps, ordOps, hN.plain]
  have hcomparison : ∀ op ∈ eqOps ++ ordOps, AllOf (Step.IsWorded N D) (comparisonBody op) := by
    intro op hop
    exact ⟨worded_line (by simp [hN.append, hN.plain, hops op hop]) (by decide), trivial⟩
  have hparam : N (constRef s) := by
    simp [constRef, hN.append, hN.plain, worded_qualified hN hhead]
  have hfmt : N (fmtParam s) := by
    simp [fmtParam, hN.append, hN.plain, worded_unqualified hN hhead]
  refine ⟨hhead, fun f e he => ?_, by simp [renderer, Include.ofSystem, hN.plain],
    worded_memberSteps hN hs⟩
  cases f with
  | eq =>
    cases he
    exact worded_comparisonEmitter hN hhead (by simp) (fun op hop => hops op (by simp [hop]))
      fun op hop => hcomparison op (by simp [hop])
  | ord =>
    cases he
    exact worded_comparisonEmitter hN hhead (by simp) (fun op hop => hops op (by simp [hop]))
      fun op hop => hcomparison op (by simp [hop])
  | hash =>
    cases he
    refine worded_hashEmitter hN hhead hparam ?_
    exact ⟨hN.worded_fixed (by simp) (by decide), trivial⟩
  | json =>
    cases he
    exact worded_jsonEmitter hN hhead (by simp [Include.ofSystem, hN.plain]) hparam
      (worded_readBody hN hs) (worded_writeBody hN hs)
  | rapidcheck => cases he; exact worded_arbitraryEmitter hN hhead (worded_generator hN hs)
  | fmt =>
    cases he
    exact worded_fmtEmitter hN hhead (by simp [Include.ofSystem, hN.plain]) hfmt (worded_fmtBody hN hs)

end VariantSpec

end TypeGen.Render
