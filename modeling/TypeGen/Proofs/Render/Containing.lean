import TypeGen.Proofs.Render.Emitting
import TypeGen.Render.Code

/-!
Containing. Nothing that a spec says in a comment, under a key of JSON or in a formatted text gets out of
the comment or the literal that it is written in: as long as the fragments of code in a spec are what
they are called, header and source begin and end in code, with all brackets matched.
-/

namespace TypeGen

open TypeGen.Code TypeGen.Spec TypeGen.Text TypeGen.Render

/-! ### Fragments of specs -/

def Spec.StructSpec.fragments (s : StructSpec) : List String :=
  s.toHead.fragments ++ s.fields.flatMap fun f => [f.name, f.type]

def Spec.EnumSpec.fragments (s : EnumSpec) : List String :=
  s.toHead.fragments ++ s.values.map (·.name)

def Spec.VariantSpec.fragments (s : VariantSpec) : List String :=
  s.toHead.fragments ++ s.arms.flatMap fun a => a.type :: a.methodKey.toList

/-- What a spec has to say in code, all but its comments and its keys. -/
def Spec.fragments : Spec → List String
  | .struct s => s.fragments
  | .enum s => s.fragments
  | .variant s => s.fragments

namespace Render

/-! ### Structs -/

namespace StructSpec

/-- The names and the types of fields are fragments. -/
def HasFragments (s : StructSpec) : Prop := ∀ f ∈ s.fields, IsFragment f.name ∧ IsFragment f.type

variable {s : StructSpec} {f : StructField}

theorem clear_initial (hf : IsFragment f.name ∧ IsFragment f.type) : Clear (initial f) := by
  rw [initial]
  split
  · exact clear_phrase (.fixed _) [.code hf.2.clear, .fixed _, .code hf.1.clear, .fixed _] (by rfl)
  · exact hf.1.clear

theorem clear_constructor (hh : IsSound s.toHead) (hs : HasFragments s) :
    ∀ t ∈ (constructor s).texts, Clear t := by
  simp only [forall_mem_texts, constructor, Function.named, Option.mem_some_iff, forall_eq',
    List.forall_mem_map]
  exact ⟨hh.clear_name, hh.clear_unqualified, by simp, by simp,
    fun f hf => ⟨clear_constRef (hs f hf).2.clear, (hs f hf).1.clear⟩,
    fun f hf => ⟨(hs f hf).1.clear, clear_initial (hs f hf)⟩⟩

theorem clear_accessor (hh : IsSound s.toHead) (hf : IsFragment f.name ∧ IsFragment f.type) :
    ∀ t ∈ (accessor s f).texts, Clear t := by
  have hname : Clear ("get_" ++ f.name) := clear_phrase (.fixed _) [.code hf.1.clear] (by rfl)
  simpa [forall_mem_texts, accessor, Function.named] using
    ⟨hname, hh.clear_unqualified, clear_constRef hf.2.clear⟩

theorem clear_access {object : String} (hobject : object ∈ ["this->", "other.", "x."])
    (hf : IsFragment f.name) : Clear (access object f) := by
  simp only [List.mem_cons, List.not_mem_nil, or_false] at hobject
  rw [access]
  split
  · rcases hobject with rfl | rfl | rfl <;>
      exact clear_phrase (.fixed _) [.fixed _, .code hf.clear, .fixed _] (by rfl)
  · rcases hobject with rfl | rfl | rfl <;>
      exact clear_phrase (.fixed _) [.code hf.clear] (by rfl)

theorem clear_tie (hs : HasFragments s) (object : String)
    (hobject : object ∈ ["this->", "other.", "x."]) : Clear (tie s object) :=
  clear_phrase (.fixed _) [.code (combines_clear.listed (List.forall_mem_map.2 fun f hf =>
    clear_access hobject (hs f hf).1)), .fixed _] (by rfl)

theorem balancedSteps_fieldSteps (hh : IsSound s.toHead)
    (hf : IsFragment f.name ∧ IsFragment f.type) :
    BalancedSteps (fieldSteps s f) := by
  refine BalancedSteps.append (balancedSteps_map fun text _ => balanced_doc text) ?_
  split
  · exact balancedSteps_one (balanced_declare (clear_accessor hh hf))
  · exact balancedSteps_line
      (clear_phrase (.code hf.2.clear) [.fixed _, .code hf.1.clear, .fixed _] (by rfl))

theorem balancedSteps_privateSteps (hs : HasFragments s) : BalancedSteps (privateSteps s) := by
  have hlabel : Clear "private:" := clear_fixed (by rfl)
  refine BalancedSteps.append
    (balancedSteps_cons balanced_blank (balancedSteps_cons (balanced_level (.inr rfl))
    (balancedSteps_cons (balanced_line hlabel) (balancedSteps_one (balanced_level (.inl rfl))))))
      (balancedSteps_map fun f hf => ?_)
  obtain ⟨hname, htype⟩ := hs f (List.mem_of_mem_filter hf)
  exact balanced_line
    (clear_phrase (.fixed _) [.code htype.clear, .fixed _, .code hname.clear, .fixed _]
    (by rfl))

theorem balancedSteps_typeSteps (hh : IsSound s.toHead) (hs : HasFragments s)
    {registry : Registry StructSpec} (hr : BalancedSteps (registry.emitAll .memberDecls s)) :
    BalancedSteps (typeSteps registry s) := by
  have hdeleted : Clear (s.name ++ "() = delete;") :=
    clear_phrase (.code hh.clear_name) [.fixed _] (by rfl)
  refine balancedSteps_one (balanced_struct hh.clear_name hh.clear_params
    (BalancedSteps.append
      (BalancedSteps.append (BalancedSteps.append (BalancedSteps.append ?_ hr) ?_) ?_) ?_))
  · split
    · exact balancedSteps_nil
    · exact balancedSteps_cons (balanced_line hdeleted)
        (balancedSteps_one (balanced_declare (clear_constructor hh hs)))
  · split
    · exact balancedSteps_nil
    · exact balancedSteps_one balanced_blank
  · exact balancedSteps_flatMap fun f hf => balancedSteps_fieldSteps hh (hs f hf)
  · split
    · exact balancedSteps_privateSteps hs
    · exact balancedSteps_nil

theorem balancedSteps_memberSteps (hh : IsSound s.toHead) (hs : HasFragments s) :
    BalancedSteps (memberSteps s) := by
  refine (balancedSteps_memberDef hh (clear_constructor hh hs) balancedSteps_nil).append
    (balancedSteps_flatMap fun f hf => balancedSteps_cons balanced_blank ?_)
  have hf := hs f (List.mem_of_mem_filter hf)
  exact balancedSteps_memberDef hh (clear_accessor hh hf) (balancedSteps_line
    (clear_phrase (.fixed _) [.code hf.1.clear, .fixed _] (by rfl)))

theorem balancedSteps_comparisonBody (hs : HasFragments s) {op : String} (hop : Clear op) :
    BalancedSteps (comparisonBody s op) := by
  have hthis := clear_tie hs "this->" (by simp)
  have hother := clear_tie hs "other." (by simp)
  exact balancedSteps_line (clear_phrase (.fixed _)
    [.code hthis, .fixed _, .code hop, .fixed _, .code hother, .fixed _] (by rfl))

theorem balancedSteps_hashBody (hs : HasFragments s) : BalancedSteps (hashBody s) := by
  have hfirst : Clear "size_t result = 0;" := clear_fixed (by rfl)
  have hlast : Clear "return result;" := clear_fixed (by rfl)
  refine ((balancedSteps_line hfirst).append (balancedSteps_map fun f hf => ?_)).append
    (balancedSteps_line hlast)
  have haccess : Clear (access "x." f) := clear_access (by simp) (hs f hf).1
  exact balanced_line (clear_phrase (.fixed _)
    [.code (hs f hf).2.clear, .fixed _, .code haccess, .fixed _] (by rfl))

theorem balancedSteps_readBody (hh : IsSound s.toHead) (hs : HasFragments s) :
    BalancedSteps (readBody s) := by
  have harguments : ∀ t ∈ s.fields.map jsonArgument, Clear t := List.forall_mem_map.2 fun f hf =>
    clear_phrase (.fixed _)
      [.code (clear_literal f.jsonKey), .fixed _, .code (hs f hf).2.clear, .fixed _] (by rfl)
  exact balancedSteps_line (clear_phrase (.fixed _)
    [.code hh.clear_qualified, .fixed _, .code (combines_clear.listed harguments), .fixed _] (by rfl))

theorem balancedSteps_writeBody (hs : HasFragments s) : BalancedSteps (writeBody s) := by
  refine balancedSteps_map fun entry hentry => balanced_assignKey _ ?_
  rcases List.mem_cons.1 hentry with rfl | hentry
  · exact clear_literal s.name
  · obtain ⟨f, hf, rfl⟩ := List.mem_map.1 hentry
    exact clear_access (by simp) (hs f hf).1

theorem clear_generator (hh : IsSound s.toHead) (hs : HasFragments s) : Clear (generator s) := by
  have harguments : ∀ t ∈ s.fields.map (fun f => "gen::arbitrary<" ++ f.type ++ ">()"), Clear t :=
    List.forall_mem_map.2 fun f hf =>
      clear_phrase (.fixed _) [.code (hs f hf).2.clear, .fixed _] (by rfl)
  exact clear_phrase (.fixed _)
    [.code hh.clear_qualified, .fixed _, .code (combines_clear.listed harguments), .fixed _] (by rfl)

theorem balancedSteps_fmtBody (hh : IsSound s.toHead) (hs : HasFragments s) :
    BalancedSteps (fmtBody s) := by
  have hstream : Clear "std::ostringstream oss;" := clear_fixed (by rfl)
  have hopen : Clear ("oss << \"<" ++ s.name ++ "\";") :=
    clear_phrase (.fixed _) [.inner hh.name.unquoted, .fixed _] (by rfl)
  have hclose : Clear "oss << \">\";" := clear_fixed (by rfl)
  have hreturn : Clear "return oss.str();" := clear_fixed (by rfl)
  refine (((balancedSteps_line hstream).append (balancedSteps_line hopen)).append
    (balancedSteps_map fun f hf => ?_)).append
      ((balancedSteps_line hclose).append (balancedSteps_line hreturn))
  have haccess : Clear (access "x." f) := clear_access (by simp) (hs f hf).1
  exact balanced_line (clear_phrase (.fixed _)
    [.inner (hs f hf).1.unquoted, .fixed _, .code haccess, .fixed _] (by rfl))

theorem isSafe_emitters (hh : IsSound s.toHead) (hs : HasFragments s) :
    ∀ f e, registry.get? f = some e → e.IsSafe s := by
  have htuple : ∀ i ∈ [Include.ofSystem "tuple"], IsFragment i.path :=
    List.forall_mem_singleton.2 (isFragment_ofList (by decide))
  have hstream : ∀ i ∈ [Include.ofSystem "sstream"], IsFragment i.path :=
    List.forall_mem_singleton.2 (isFragment_ofList (by decide))
  have hparam : Clear (constRef s) := clear_constRef hh.clear_qualified
  have hcompared :
    ∀ {ops : List String}, (∀ op ∈ ops, Clear op) → ∀ op ∈ ops, BalancedSteps (comparisonBody s op) :=
    fun hops op hop => balancedSteps_comparisonBody hs (hops op hop)
  intro f e he
  cases f with
  | eq => cases he; exact isSafe_comparison hh htuple clear_eqOps (hcompared clear_eqOps)
  | ord => cases he; exact isSafe_comparison hh htuple clear_ordOps (hcompared clear_ordOps)
  | hash => cases he; exact isSafe_hash hh hparam (balancedSteps_hashBody hs)
  | json =>
    cases he
    exact isSafe_json hh (by simp) hparam (balancedSteps_readBody hh hs)
      (balancedSteps_writeBody hs)
  | rapidcheck => cases he; exact isSafe_arbitrary hh (clear_generator hh hs)
  | fmt =>
    cases he
    exact isSafe_fmt hh hstream (clear_constRef hh.clear_unqualified) (balancedSteps_fmtBody hh hs)

theorem isSafe_renderer (hh : IsSound s.toHead) (hs : HasFragments s) : renderer.IsSafe s where
  head := hh
  emitters := isSafe_emitters hh hs
  intrinsic := by
    have hmemory : IsFragment "memory" := isFragment_ofList (by decide)
    intro i hi
    simp only [renderer] at hi
    split at hi
    · rw [List.mem_singleton.1 hi]; exact hmemory
    · cases hi
  type := balancedSteps_typeSteps hh hs (balancedSteps_emitAll (isSafe_emitters hh hs) .memberDecls)
  members := balancedSteps_memberSteps hh hs

end StructSpec

/-! ### Enums -/

namespace EnumSpec

/-- The names of enumerators are fragments. -/
def HasFragments (s : EnumSpec) : Prop := ∀ v ∈ s.values, IsFragment v.name

variable {s : EnumSpec} {v : Enumerator}

theorem clear_enumerator (hh : IsSound s.toHead) (hv : IsFragment v.name) : Clear (enumerator s v) :=
  clear_phrase (.code hh.clear_qualified) [.fixed _, .code hv.clear] (by rfl)

theorem balancedSteps_typeSteps (hh : IsSound s.toHead) (hs : HasFragments s) :
    BalancedSteps (typeSteps s) := by
  have hhead : Clear ("enum class " ++ s.name) :=
    clear_phrase (.fixed _) [.code hh.clear_name] (by rfl)
  have hvalues : EndsInCode (strokesOf [.join ",\n" (s.values.map fun v => [.text v.name])]) := by
    have hitems :
      ∀ item ∈ strokesOfItems (s.values.map fun v => [Step.text v.name]), EndsInCode item := by
      rw [strokesOfItems_eq, List.map_map]
      exact List.forall_mem_map.2 fun v hv => endsInCode_text (hs v hv).clear
    have hjoin : EndsInCode (strokesOfJoin ",\n" _) :=
      endsInCode_join (by decide) (by decide) (by decide) hitems
    rwa [strokesOf, strokesOf, List.append_nil, Step.strokes]
  have hbraces := balanced_braces (endsInCode_text hhead) hvalues
  refine balancedSteps_one (balanced_semicolon ?_)
  simpa [strokesOf, Step.strokes] using hbraces.endsInCode

theorem balancedSteps_throwUnknownValue (hh : IsSound s.toHead) :
    BalancedSteps [throwUnknownValue s] :=
  balancedSteps_line (clear_phrase (.fixed _) [.inner hh.name.unquoted, .fixed _] (by rfl))

theorem balancedSteps_hashBody : BalancedSteps hashBody := balancedSteps_line (clear_fixed (by rfl))

theorem balancedSteps_readBody (hh : IsSound s.toHead) (hs : HasFragments s) :
    BalancedSteps (readBody s) := by
  have hread : Clear "std::string as_str = j.get<std::string>();" := clear_fixed (by rfl)
  have hthrow : Clear ("throw std::runtime_error(\"Unknown " ++ s.name ++ " value \" + as_str);") :=
    clear_phrase (.fixed _) [.inner hh.name.unquoted, .fixed _] (by rfl)
  refine (balancedSteps_line hread).append (balancedSteps_one (balanced_ifChain
    (List.forall_mem_map.2 fun v hv => ⟨?_, balancedSteps_line ?_⟩) (balancedSteps_line hthrow)))
  · exact clear_phrase (.fixed _) [.code (clear_literal v.jsonKey)] (by rfl)
  · exact clear_phrase (.fixed _) [.code (clear_enumerator hh (hs v hv)), .fixed _] (by rfl)

/-- A switch with a case for each enumerator. -/
theorem balancedSteps_valueSwitch (hh : IsSound s.toHead) {label : Enumerator → String}
    {leaves : Bool}
    {body : Enumerator → List Step} (hlabel : ∀ v ∈ s.values, Clear (label v))
    (hbody : ∀ v ∈ s.values, BalancedSteps (body v)) :
    BalancedSteps [.switch "x" ((s.values.map fun v => .case (label v) leaves (body v)) ++
      [.default false [throwUnknownValue s]])] := by
  have hx : Clear "x" := clear_fixed (by rfl)
  exact balancedSteps_one (balanced_switch hx ((balancedSteps_map fun v hv =>
    balanced_case (hlabel v hv) (hbody v hv)).append
      (balancedSteps_one (balanced_default (balancedSteps_throwUnknownValue hh)))))

theorem balancedSteps_writeBody (hh : IsSound s.toHead) (hs : HasFragments s) :
    BalancedSteps (writeBody s) :=
  balancedSteps_valueSwitch hh (fun v hv => clear_enumerator hh (hs v hv)) fun v _ =>
    balancedSteps_line
      (clear_phrase (.fixed _) [.code (clear_literal v.jsonKey), .fixed _] (by rfl))

theorem clear_generator (hh : IsSound s.toHead) (hs : HasFragments s) : Clear (generator s) := by
  have hvalues : Clear (joinWith ", " (s.values.map (enumerator s))) :=
    combines_clear.listed (List.forall_mem_map.2 fun v hv => clear_enumerator hh (hs v hv))
  exact clear_phrase (.fixed _)
    [.code hh.clear_qualified, .fixed _, .code hvalues, .fixed _] (by rfl)

theorem balancedSteps_fmtBody (hh : IsSound s.toHead) (hs : HasFragments s) :
    BalancedSteps (fmtBody s) :=
  balancedSteps_valueSwitch hh
    (fun v hv => clear_phrase (.code hh.clear_name) [.fixed _, .code (hs v hv).clear] (by rfl))
    fun v _ =>
      balancedSteps_line (clear_phrase (.fixed _) [.code (clear_literal v.name), .fixed _] (by rfl))

theorem isSafe_emitters (hh : IsSound s.toHead) (hs : HasFragments s) :
    ∀ f e, registry.get? f = some e → e.IsSafe s := by
  have hexcept : IsFragment "stdexcept" := isFragment_ofList (by decide)
  have hstring : IsFragment "string" := isFragment_ofList (by decide)
  intro f e he
  cases f with
  | eq | ord => cases he
  | hash => cases he; exact isSafe_hash hh hh.clear_qualified balancedSteps_hashBody
  | json =>
    cases he
    exact isSafe_json hh (List.forall_mem_cons.2 ⟨hexcept, List.forall_mem_singleton.2 hstring⟩)
      hh.clear_qualified (balancedSteps_readBody hh hs) (balancedSteps_writeBody hh hs)
  | rapidcheck => cases he; exact isSafe_arbitrary hh (clear_generator hh hs)
  | fmt =>
    cases he
    exact isSafe_fmt hh (List.forall_mem_singleton.2 hexcept) hh.clear_name
      (balancedSteps_fmtBody hh hs)

theorem isSafe_renderer (hh : IsSound s.toHead) (hs : HasFragments s) : renderer.IsSafe s where
  head := hh
  emitters := isSafe_emitters hh hs
  intrinsic := by simp [renderer]
  type := balancedSteps_typeSteps hh hs
  members := balancedSteps_nil

end EnumSpec

/-! ### Variants -/

namespace VariantSpec

/-- The types and the method keys of arms are fragments. -/
def HasFragments (s : VariantSpec) : Prop :=
  ∀ a ∈ s.arms, IsFragment a.type ∧ ∀ k ∈ a.methodKey, IsFragment k

variable {s : VariantSpec} {a : Arm}

theorem clear_armTypes (hs : HasFragments s) : ∀ t ∈ armTypes s, Clear t :=
  List.forall_mem_map.2 fun a ha => (hs a ha).1.clear

theorem clear_membershipTrait (hh : IsSound s.toHead) : Clear (membershipTrait s) :=
  clear_phrase (.fixed _) [.code hh.clear_name, .fixed _] (by rfl)

theorem clear_typeVariable : Clear (typeVariable s) := clear_freshVariable _ (by decide)

theorem clear_returnVariable : Clear (returnVariable s) := clear_freshVariable _ (by decide)

theorem clear_visitorVariable : Clear (visitorVariable s) := clear_freshVariable _ (by decide)

theorem clear_constructor (hh : IsSound s.toHead) (ha : IsFragment a.type) :
    ∀ t ∈ (constructor s a).texts, Clear t := by
  have hv : Clear "v" := clear_fixed (by rfl)
  have hraw : Clear "raw_variant" := clear_fixed (by rfl)
  simpa [forall_mem_texts, constructor, Function.named] using
    ⟨hh.clear_name, hh.clear_unqualified, ⟨clear_constRef ha.clear, hv⟩, hraw, hv⟩

theorem clear_key (ha : IsFragment a.type ∧ ∀ k ∈ a.methodKey, IsFragment k) : Clear a.key := by
  rw [Arm.key]
  cases hkey : a.methodKey with
  | none => exact ha.1.clear
  | some key => exact (ha.2 key hkey).clear

theorem clear_isKey (hh : IsSound s.toHead)
    (ha : IsFragment a.type ∧ ∀ k ∈ a.methodKey, IsFragment k) :
    ∀ t ∈ (isKey s a).texts, Clear t := by
  have hname : Clear ("is_" ++ a.key) := clear_phrase (.fixed _) [.code (clear_key ha)] (by rfl)
  have hbool : Clear "bool" := clear_fixed (by rfl)
  simpa [forall_mem_texts, isKey, Function.named] using ⟨hname, hh.clear_unqualified, hbool⟩

theorem clear_requireKey (hh : IsSound s.toHead)
    (ha : IsFragment a.type ∧ ∀ k ∈ a.methodKey, IsFragment k) :
    ∀ t ∈ (requireKey s a).texts, Clear t := by
  have hname : Clear ("require_" ++ a.key) := clear_phrase (.fixed _) [.code (clear_key ha)] (by rfl)
  simpa [forall_mem_texts, requireKey, Function.named] using
    ⟨hname, hh.clear_unqualified, clear_constRef ha.1.clear⟩

/-- The switch over the arms is balanced when the body of each case is. -/
theorem balanced_indexSwitch (hh : IsSound s.toHead) {index : String} {leaves : Bool}
    {body : Arm → List Step} (hindex : Clear index) (hbody : ∀ a ∈ s.arms, BalancedSteps (body a)) :
    Balanced (indexSwitch s index leaves body).strokes := by
  have hthrow : Clear (throwUnknownIndex index s.name) :=
    clear_phrase (.fixed _) [.code hindex, .fixed _, .inner hh.name.unquoted, .fixed _] (by rfl)
  refine balanced_switch hindex (BalancedSteps.append (balancedSteps_map fun entry hentry => ?_)
    (balancedSteps_one (balanced_default (balancedSteps_line hthrow))))
  exact balanced_case (clear_word (isWordChar_toString _))
    (hbody _ (List.fst_mem_of_mem_zipIdx hentry))

/-! #### The type -/

theorem balanced_sameReturn {qualifier : String}
    (hqualifier : qualifier ∈ [" const &", " &"]) {first : Arm} (hfirst : IsFragment first.type)
    (ha : IsFragment a.type) : Balanced (sameReturn s qualifier first a).strokes := by
  have hresult : ∀ {t}, IsFragment t →
      Clear ("std::invoke_result_t<" ++ visitorVariable s ++ ", " ++ t ++ qualifier ++ ">") := fun ht => by
    simp only [List.mem_cons, List.not_mem_nil, or_false] at hqualifier
    rcases hqualifier with rfl | rfl <;>
      exact clear_phrase (.fixed _)
        [.code clear_visitorVariable, .fixed _, .code ht.clear, .fixed _, .fixed _] (by rfl)
  exact balanced_line
    (clear_phrase (.fixed _) [.code (hresult hfirst), .fixed _, .code (hresult ha),
    .fixed _, .code (clear_literal _), .fixed _] (by rfl))

theorem balanced_visitStep (hh : IsSound s.toHead) (hs : HasFragments s) (isConst : Bool) :
    Balanced (visitStep s isConst).strokes := by
  have hname : Clear "visit" := clear_fixed (by rfl)
  have hv : Clear "v" := clear_fixed (by rfl)
  have hindex : Clear "this->index()" := clear_fixed (by rfl)
  have hvisitor : Clear (visitorVariable s ++ " &&") :=
    clear_phrase (.code clear_visitorVariable) [.fixed _] (by rfl)
  refine balanced_define ?_
    (BalancedSteps.append ?_ (balancedSteps_one (balanced_indexSwitch hh hindex fun a ha => ?_)))
  · simpa [forall_mem_texts, Function.named] using
      ⟨hname, clear_returnVariable, ⟨clear_returnVariable, clear_visitorVariable⟩, hvisitor, hv⟩
  · split
    next first rest _ harms =>
      refine balancedSteps_map fun a ha =>
        balanced_sameReturn (by cases isConst <;> simp) (hs first ?_).1
        (hs a ?_).1
      · rw [harms]; exact List.mem_cons_self ..
      · rw [harms]; exact List.mem_cons_of_mem _ ha
    next => exact balancedSteps_nil
  · exact balancedSteps_line (clear_phrase (.fixed _) [.code (hs a ha).1.clear, .fixed _] (by rfl))

theorem balanced_memberCheck (hh : IsSound s.toHead) (method : String) :
    Balanced (memberCheck s method).strokes :=
  balanced_line (clear_phrase (.fixed _) [.code (clear_membershipTrait hh), .fixed _,
    .code clear_typeVariable, .fixed _, .code (clear_literal _), .fixed _] (by rfl))

theorem balanced_hasStep (hh : IsSound s.toHead) : Balanced (hasStep s).strokes := by
  have hname : Clear "has" := clear_fixed (by rfl)
  have hbool : Clear "bool" := clear_fixed (by rfl)
  refine balanced_define ?_
    (balancedSteps_cons (balanced_memberCheck hh "has") (balancedSteps_line ?_))
  · simpa [forall_mem_texts, Function.named] using ⟨hname, hbool, clear_typeVariable⟩
  · exact clear_phrase (.fixed _) [.code clear_typeVariable, .fixed _] (by rfl)

theorem balanced_getStep (hh : IsSound s.toHead) (isConst : Bool) :
    Balanced (getStep s isConst).strokes := by
  have hname : Clear "get" := clear_fixed (by rfl)
  have hreturns : Clear (typeVariable s ++ (if isConst then " const &" else " &")) := by
    cases isConst <;> exact clear_phrase (.code clear_typeVariable) [.fixed _] (by rfl)
  refine balanced_define ?_
    (balancedSteps_cons (balanced_memberCheck hh "get") (balancedSteps_line ?_))
  · simpa [forall_mem_texts, Function.named] using ⟨hname, hreturns, clear_typeVariable⟩
  · exact clear_phrase (.fixed _) [.code clear_typeVariable, .fixed _] (by rfl)

theorem balanced_indexStep : Balanced indexStep.strokes := by
  have hname : Clear "index" := clear_fixed (by rfl)
  have hreturns : Clear "size_t" := clear_fixed (by rfl)
  have hline : Clear "return this->raw_variant.index();" := clear_fixed (by rfl)
  refine balanced_define ?_ (balancedSteps_line hline)
  simpa [forall_mem_texts, Function.named] using ⟨hname, hreturns⟩

theorem balancedSteps_traitSteps (hh : IsSound s.toHead) (hs : HasFragments s) :
    BalancedSteps (traitSteps s) := by
  have htests : Clear (joinWith " || " ((armTypes s).map fun t =>
      "std::is_same_v<" ++ typeVariable s ++ ", " ++ t ++ ">")) :=
    joinWith_of clear_empty
      (fun ht hu => clear_phrase (.code ht) [.fixed _, .code hu] (by rfl))
      (List.forall_mem_map.2 fun t ht => clear_phrase (.fixed _) [.code clear_typeVariable, .fixed _,
        .code (clear_armTypes hs t ht), .fixed _] (by rfl))
  refine balancedSteps_cons (balanced_template (by simpa using clear_typeVariable) false)
    (balancedSteps_line ?_)
  exact clear_phrase (.fixed _)
    [.code (clear_membershipTrait hh), .fixed _, .code htests, .fixed _] (by rfl)

theorem balancedSteps_keyDecls (hh : IsSound s.toHead) (hs : HasFragments s) :
    BalancedSteps (keyDecls s) := by
  rw [keyDecls]
  split
  · exact balancedSteps_cons balanced_blank (balancedSteps_flatMap fun a ha =>
      balancedSteps_cons (balanced_declare (clear_isKey hh (hs a ha)))
        (balancedSteps_one (balanced_declare (clear_requireKey hh (hs a ha)))))
  · exact balancedSteps_nil

theorem balancedSteps_typeSteps (hh : IsSound s.toHead) (hs : HasFragments s)
    {registry : Registry VariantSpec} (hr : BalancedSteps (registry.emitAll .memberDecls s)) :
    BalancedSteps (typeSteps registry s) := by
  have hdeleted : Clear (s.name ++ "() = delete;") :=
    clear_phrase (.code hh.clear_name) [.fixed _] (by rfl)
  have hraw : Clear (rawType s ++ " raw_variant;") := by
    have htype : Clear (rawType s) := clear_phrase (.fixed _)
      [.code (combines_clear.listed (clear_armTypes hs)), .fixed _] (by rfl)
    exact clear_phrase (.code htype) [.fixed _] (by rfl)
  have hconstructors : BalancedSteps (s.arms.map fun a => .declare (constructor s a)) :=
    balancedSteps_map fun a ha => balanced_declare (clear_constructor hh (hs a ha).1)
  have hblank := balancedSteps_one balanced_blank
  have hspaced : ∀ {step : Step}, Balanced step.strokes → BalancedSteps [.blank, step] := fun h =>
    balancedSteps_cons balanced_blank (balancedSteps_one h)
  have hmethods : BalancedSteps [.blank, visitStep s true, .blank, visitStep s false,
      .blank, hasStep s, .blank, getStep s true, .blank, getStep s false, .blank, indexStep] :=
    (hspaced (balanced_visitStep hh hs true)).append
      ((hspaced (balanced_visitStep hh hs false)).append
      ((hspaced (balanced_hasStep hh)).append ((hspaced (balanced_getStep hh true)).append
        ((hspaced (balanced_getStep hh false)).append (hspaced balanced_indexStep)))))
  exact balancedSteps_one (balanced_struct hh.clear_name hh.clear_params
    ((((((((balancedSteps_line hdeleted).append hconstructors).append hblank).append
      (balancedSteps_traitSteps hh hs)).append hmethods).append hr).append
        (balancedSteps_keyDecls hh hs)).append
      (balancedSteps_cons balanced_blank (balancedSteps_line hraw))))

theorem balancedSteps_keyDefs (hh : IsSound s.toHead) (hs : HasFragments s) :
    BalancedSteps (keyDefs s) := by
  rw [keyDefs]
  split
  · refine balancedSteps_flatMap fun a ha => balancedSteps_cons balanced_blank (BalancedSteps.append
      (balancedSteps_memberDef hh (clear_isKey hh (hs a ha)) (balancedSteps_line ?_))
      (balancedSteps_cons balanced_blank
        (balancedSteps_memberDef hh (clear_requireKey hh (hs a ha)) (balancedSteps_line ?_))))
    · exact clear_phrase (.fixed _) [.code (hs a ha).1.clear, .fixed _] (by rfl)
    · exact clear_phrase (.fixed _) [.code (hs a ha).1.clear, .fixed _] (by rfl)
  · exact balancedSteps_nil

theorem balancedSteps_memberSteps (hh : IsSound s.toHead) (hs : HasFragments s) :
    BalancedSteps (memberSteps s) :=
  balancedSteps_cons (balanced_join (List.forall_mem_map.2 fun a ha =>
    balancedSteps_memberDef hh (clear_constructor hh (hs a ha).1) balancedSteps_nil))
      (balancedSteps_keyDefs hh hs)

/-! #### Features -/

theorem balancedSteps_comparisonBody {op : String} (hop : Clear op) :
    BalancedSteps (comparisonBody op) :=
  balancedSteps_line (clear_phrase (.fixed _) [.code hop, .fixed _] (by rfl))

theorem balancedSteps_hashBody : BalancedSteps hashBody := balancedSteps_line (clear_fixed (by rfl))

theorem balancedSteps_readBody (hh : IsSound s.toHead) (hs : HasFragments s) :
    BalancedSteps (readBody s) := by
  have hread : Clear "std::string key = j.at(\"type\").template get<std::string>();" :=
    clear_fixed (by rfl)
  have hthrow : Clear ("throw std::runtime_error(\"Unknown type key \" + key + \" for type " ++
      s.name ++ "\");") :=
    clear_phrase (.fixed _) [.inner hh.name.unquoted, .fixed _] (by rfl)
  refine (balancedSteps_line hread).append (balancedSteps_one (balanced_ifChain
    (List.forall_mem_map.2 fun a ha => ⟨?_, balancedSteps_line ?_⟩) (balancedSteps_line hthrow)))
  · exact clear_phrase (.fixed _) [.code (clear_literal a.jsonKey)] (by rfl)
  · exact clear_phrase (.fixed _)
      [.code hh.clear_qualified, .fixed _, .code (hs a ha).1.clear, .fixed _] (by rfl)

theorem balancedSteps_writeBody (hh : IsSound s.toHead) (hs : HasFragments s) :
    BalancedSteps (writeBody s) := by
  have hindex : Clear "x.index()" := clear_fixed (by rfl)
  refine balancedSteps_cons (balanced_assignKey _ (clear_literal s.name))
    (balancedSteps_one (balanced_indexSwitch hh hindex fun a ha => ?_))
  exact balancedSteps_cons (balanced_assignKey _ (clear_literal a.jsonKey))
    (balancedSteps_one (balanced_assignKey _
    (clear_phrase (.fixed _) [.code (hs a ha).1.clear, .fixed _] (by rfl))))

theorem clear_generator (hh : IsSound s.toHead) (hs : HasFragments s) : Clear (generator s) := by
  have harms : ∀ t ∈ s.arms.map (fun a =>
      "gen::construct<" ++ qualified s.toHead ++ ">(gen::arbitrary<" ++ a.type ++ ">())"), Clear t :=
    List.forall_mem_map.2 fun a ha => clear_phrase (.fixed _)
      [.code hh.clear_qualified, .fixed _, .code (hs a ha).1.clear, .fixed _] (by rfl)
  exact clear_phrase (.fixed _) [.code (combines_clear.listed harms), .fixed _] (by rfl)

theorem balancedSteps_fmtBody (hh : IsSound s.toHead) (hs : HasFragments s) :
    BalancedSteps (fmtBody s) := by
  have hstream : Clear "std::ostringstream oss;" := clear_fixed (by rfl)
  have hindex : Clear "x.index()" := clear_fixed (by rfl)
  have hreturn : Clear "return oss.str();" := clear_fixed (by rfl)
  refine (balancedSteps_line hstream).append
    (balancedSteps_cons (balanced_indexSwitch hh hindex fun a ha => ?_)
    (balancedSteps_line hreturn))
  exact balancedSteps_line (clear_phrase (.fixed _)
    [.code (clear_literal _), .fixed _, .code (hs a ha).1.clear, .fixed _] (by rfl))

theorem isSafe_emitters (hh : IsSound s.toHead) (hs : HasFragments s) :
    ∀ f e, registry.get? f = some e → e.IsSafe s := by
  have hexcept : IsFragment "stdexcept" := isFragment_ofList (by decide)
  have hstring : IsFragment "string" := isFragment_ofList (by decide)
  have hstream : IsFragment "sstream" := isFragment_ofList (by decide)
  have hparam : Clear (constRef s) := clear_constRef hh.clear_qualified
  intro f e he
  cases f with
  | eq =>
    cases he
    exact isSafe_comparison hh (by simp) clear_eqOps fun op hop =>
      balancedSteps_comparisonBody (clear_eqOps op hop)
  | ord =>
    cases he
    exact isSafe_comparison hh (by simp) clear_ordOps fun op hop =>
      balancedSteps_comparisonBody (clear_ordOps op hop)
  | hash => cases he; exact isSafe_hash hh hparam balancedSteps_hashBody
  | json =>
    cases he
    exact isSafe_json hh (List.forall_mem_cons.2 ⟨hexcept, List.forall_mem_singleton.2 hstring⟩)
      hparam (balancedSteps_readBody hh hs) (balancedSteps_writeBody hh hs)
  | rapidcheck => cases he; exact isSafe_arbitrary hh (clear_generator hh hs)
  | fmt =>
    cases he
    exact isSafe_fmt hh (List.forall_mem_cons.2 ⟨hstream, List.forall_mem_singleton.2 hexcept⟩)
      (clear_constRef hh.clear_unqualified) (balancedSteps_fmtBody hh hs)

theorem isSafe_renderer (hh : IsSound s.toHead) (hs : HasFragments s) : renderer.IsSafe s where
  head := hh
  emitters := isSafe_emitters hh hs
  intrinsic := by
    have hpaths : ∀ p ∈ ["cstddef", "stdexcept", "string", "type_traits", "variant"], IsFragment p := by
      simp only [List.forall_mem_cons]
      exact ⟨isFragment_ofList (by decide), isFragment_ofList (by decide),
        isFragment_ofList (by decide), isFragment_ofList (by decide),
        isFragment_ofList (by decide), by simp⟩
    exact List.forall_mem_map.2 hpaths
  type := balancedSteps_typeSteps hh hs (balancedSteps_emitAll (isSafe_emitters hh hs) .memberDecls)
  members := balancedSteps_memberSteps hh hs

end VariantSpec

/-! ### Headers and sources -/

/-- The fragments of a spec are those of its head and those of its kind. -/
theorem balancedSteps_code {s : Spec} (h : ∀ t ∈ s.fragments, IsFragment t) :
    BalancedSteps (headerSteps s) ∧ BalancedSteps (sourceSteps s) := by
  cases s with
  | struct s =>
    obtain ⟨hhead, hfields⟩ := List.forall_mem_append.1 h
    have hs : StructSpec.HasFragments s := fun f hf => by
      simpa using List.forall_mem_flatMap.1 hfields f hf
    have hsafe := StructSpec.isSafe_renderer (isSound_of_fragments hhead) hs
    exact ⟨hsafe.header, hsafe.source⟩
  | enum s =>
    obtain ⟨hhead, hvalues⟩ := List.forall_mem_append.1 h
    have hsafe := EnumSpec.isSafe_renderer (isSound_of_fragments hhead) (List.forall_mem_map.1 hvalues)
    exact ⟨hsafe.header, hsafe.source⟩
  | variant s =>
    obtain ⟨hhead, harms⟩ := List.forall_mem_append.1 h
    have hs : VariantSpec.HasFragments s := fun a ha => by
      simpa using List.forall_mem_flatMap.1 harms a ha
    have hsafe := VariantSpec.isSafe_renderer (isSound_of_fragments hhead) hs
    exact ⟨hsafe.header, hsafe.source⟩

theorem lexer_renderSteps {steps : List Step} (h : BalancedSteps steps) :
    lexer.read ⟨.code, []⟩ (renderSteps steps).toList = some ⟨.code, []⟩ := by
  obtain ⟨q, s, hrun, rfl, ⟨w, hw, hread⟩, -⟩ := h (Page.blank Indent.default) []
  have htext : renderSteps steps = w := by
    rw [renderSteps, runSteps, hrun, hw]
    simp [Page.blank]
  rw [htext, hread]

end Render

open Render in
/-- Header and source of a spec lead from code to code: every comment and every literal that they open
is closed, and all brackets match, whatever the spec says in its comments and keys. -/
theorem Spec.lexer_code (s : Spec) (h : ∀ t ∈ s.fragments, IsFragment t) :
    lexer.read ⟨.code, []⟩ (headerCode s).toList = some ⟨.code, []⟩ ∧
      lexer.read ⟨.code, []⟩ (sourceCode s).toList = some ⟨.code, []⟩ := by
  obtain ⟨hheader, hsource⟩ := balancedSteps_code h
  exact ⟨lexer_renderSteps hheader, lexer_renderSteps hsource⟩

/-- A variant whose comment and keys hold what ends comments and literals. -/
def Spec.hostile : Spec :=
  .variant
    { name := "Shape"
      space := some "geo"
      params := ["T"]
      features := FeatureSet.ofList [.json, .fmt]
      includes := [⟨"geo/circle.h", false⟩]
      sourceIncludes := []
      postIncludes := []
      forwards := [" struct Circle; "]
      doc := some "ends */ \" here\n// \x7b *"
      arms := [⟨"Circle", some "circle", "\"*/", "\\"⟩, ⟨"std::vector<T>", some "many", "//\x7b(\n", "/*["⟩]
      explicitConstructors := true }

theorem Spec.lexer_code_hostile : (∀ t ∈ Spec.hostile.fragments, IsFragment t) ∧
    lexer.read ⟨.code, []⟩ (Render.headerCode Spec.hostile).toList = some ⟨.code, []⟩ ∧
    lexer.read ⟨.code, []⟩ (Render.sourceCode Spec.hostile).toList = some ⟨.code, []⟩ := by
  have hfragments : ∀ t ∈ ["Shape", "geo", "T", " struct Circle; ", "geo/circle.h", "Circle", "circle",
      "std::vector<T>", "many"], IsFragment t := by
    simp only [List.forall_mem_cons]
    exact ⟨isFragment_ofList (by decide), isFragment_ofList (by decide), isFragment_ofList (by decide),
      isFragment_ofList (by decide), isFragment_ofList (by decide), isFragment_ofList (by decide),
      isFragment_ofList (by decide), isFragment_ofList (by decide), isFragment_ofList (by decide),
      by simp⟩
  exact ⟨hfragments, Spec.hostile.lexer_code hfragments⟩

end TypeGen
