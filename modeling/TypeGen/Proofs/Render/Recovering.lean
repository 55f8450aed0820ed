import TypeGen.Proofs.Render.Matching
import TypeGen.Proofs.Render.Pairing
import TypeGen.Proofs.Render.Serializing
import TypeGen.Proofs.Render.Variables
import TypeGen.Proofs.Spec.Features

/-!
Recovering. What the code of a spec writes to JSON it reads back: every field goes to its place in the
constructor, every enumerator and every alternative comes back as itself, whatever characters the
keys are made of, as long as no two keys are the same.
-/

namespace TypeGen.Render

open TypeGen.Code TypeGen.Spec TypeGen.Text Serial

/-! ### Where the serializers are -/

theorem isStatic_definition {site : Site} {steps : List Step}
    (h : ∀ m ∈ mentionsOf site steps, m.function.isStatic = false) :
    ∀ d ∈ definitionsOf site [] steps, d.function.isStatic = false := fun d hd => by
  have hmention : d.mention ∈ (mentionsOf site steps).filter (·.defines) := by
    rw [← map_mention_definitionsOf site []]; exact List.mem_map_of_mem hd
  exact h _ (List.mem_filter.1 hmention).1

theorem flatMap_eq_of_mem {α β : Type} {a : α} {ys : List β} {f : α → List β} (ha : f a = ys) :
    ∀ {xs : List α}, xs.Nodup → a ∈ xs → (∀ x ∈ xs, x ≠ a → f x = []) → xs.flatMap f = ys
  | x :: xs, hnodup, hmem, hf => by
    obtain ⟨hx, hxs⟩ := List.nodup_cons.1 hnodup
    rw [List.flatMap_cons]
    by_cases h : x = a
    · have hrest : xs.flatMap f = [] := List.flatMap_eq_nil_iff.2 fun y hy =>
        hf y (List.mem_cons_of_mem _ hy) fun hya => hx (h ▸ hya ▸ hy)
      rw [h, ha, hrest, List.append_nil]
    · rw [hf x (List.mem_cons_self ..) h, List.nil_append]
      exact flatMap_eq_of_mem ha hxs ((List.mem_cons.1 hmem).resolve_left (Ne.symm h))
        fun y hy => hf y (List.mem_cons_of_mem _ hy)

theorem filterMap_eq_singleton {α β : Type} {a : α} {b : β} {f : α → Option β} {xs : List α}
    (hxs : xs.Nodup) (hmem : a ∈ xs) (ha : f a = some b) (hf : ∀ x ∈ xs, x ≠ a → f x = none) :
    xs.filterMap f = [b] := by
  rw [List.filterMap_eq_flatMap_toList]
  exact flatMap_eq_of_mem (by rw [ha]; rfl) hxs hmem fun x hx hne => by rw [hf x hx hne]; rfl

section Serializers

variable {S : Type} [HasHead S] {r : Renderer S} {s : S} {added : Feature → List Addition}
  {x : Filling}

/-- How a kind of specs fills in what all kinds have. Nothing else that is defined for a spec is
static. -/
structure Renderer.IsFilled (r : Renderer S) (s : S) (added : Feature → List Addition)
    (x : Filling) : Prop where
  adds : r.registry.Adds s added (x.around (HasHead.head s))
  unheaded : Unheaded (r.type s)
  definesOnly : DefinesOnly (r.members s)
  ofType : ∀ m ∈ mentionsOf (beside (HasHead.head s)) (r.type s), m.function.isStatic = false
  ofMembers : ∀ m ∈ mentionsOf (beside (HasHead.head s)) (r.members s),
    m.function.isStatic = false
  ofFeatures : ∀ f, ∀ a ∈ added f, a.function.isStatic = false

/-- Among static functions none but those for JSON has the name of one of these. -/
theorem filter_around {name : String} (hname : name ≠ "arbitrary") (h : Head) {f : Feature}
    (hf : f ≠ .json) : (x.around h f).filter (fun a => isSerializer name a.function) = [] := by
  refine List.filter_eq_nil_iff.2 fun a ha => ?_
  cases f with
  | eq | ord => cases ha
  | json => exact absurd rfl hf
  | hash => cases List.mem_singleton.1 ha; simp [isSerializer, hashFunction, Function.named]
  | rapidcheck =>
    cases List.mem_singleton.1 ha; simp [isSerializer, arbitraryFunction, Function.named, hname.symm]
  | fmt =>
    rcases List.mem_cons.1 ha with rfl | ha
    · simp [isSerializer, formatFunction, Function.named]
    · cases List.mem_singleton.1 ha; simp [isSerializer, streamFunction, Function.named]

theorem returns_around {h : Head} {f : Feature} {a : Addition} (ha : a ∈ x.around h f) :
    a.function.returns.isNone = false := by
  revert ha
  cases f <;> simp only [Filling.around, List.mem_cons, List.not_mem_nil, or_false, false_implies]
  case hash | rapidcheck => rintro rfl; rfl
  case json | fmt => rintro (rfl | rfl) <;> rfl

namespace Renderer.IsFilled

variable (hr : r.IsFilled s added x)
include hr

/-- The static functions of a name are those that the feature for JSON adds. -/
theorem filter_definitions (hjson : .json ∈ (HasHead.head s).features.toList) (name : String)
    (hname : name ≠ "arbitrary") :
    (definitionsOf Site.top [] (r.header s) ++ definitionsOf Site.top [] (r.source s)).filter
      (isSerializer name ·.function) =
        ((x.around (HasHead.head s) .json).filter (isSerializer name ·.function)).map
          (Addition.defined (HasHead.head s)) := by
  have hnone : ∀ {ds : List Definition}, (∀ d ∈ ds, d.function.isStatic = false) →
      ds.filter (isSerializer name ·.function) = [] := fun hds =>
    List.filter_eq_nil_iff.2 fun d hd => by simp [isSerializer, hds d hd]
  have hadded : ∀ d ∈ (additions s added).map (Addition.defined (HasHead.head s)),
      d.function.isStatic = false := fun d hd => by
    obtain ⟨a, ha, rfl⟩ := List.mem_map.1 hd
    obtain ⟨f, -, ha⟩ := List.mem_flatMap.1 ha
    exact hr.ofFeatures f a ha
  have haround : ((additions s (x.around (HasHead.head s))).map
      (Addition.defined (HasHead.head s))).filter (isSerializer name ·.function) =
        ((x.around (HasHead.head s) .json).filter (isSerializer name ·.function)).map
          (Addition.defined (HasHead.head s)) := by
    rw [List.filter_map]
    refine congrArg (List.map _) ?_
    rw [additions, List.filter_flatMap]
    exact flatMap_eq_of_mem rfl (HasHead.head s).features.ordered.nodup hjson
      fun f _ hf => filter_around hname _ hf
  rw [filter_definitionsOf_files hr.adds hr.unheaded (hnone (isStatic_definition hr.ofType)),
    definitionsOf_definitions hr.adds, List.filter_append, haround]
  split
  · rw [List.filter_append, hnone (isStatic_definition hr.ofMembers), hnone hadded]; rfl
  · rfl

/-- The constructors in a header are those of its type. -/
theorem filter_constructors : (mentionsOf Site.top (r.header s)).filter isConstructor =
    (mentionsOf (beside (HasHead.head s)) (r.type s)).filter isConstructor := by
  have hdeclared : ∀ ms : List Mention,
      ms.filter isConstructor = (ms.filter (!·.defines)).filter isConstructor := fun ms => by
    rw [List.filter_filter]
    refine List.filter_congr fun m _ => ?_
    simp only [isConstructor]
    cases m.defines <;> simp
  have haround : ((additions s (x.around (HasHead.head s))).map Addition.declared).filter
      isConstructor = [] := by
    refine List.filter_eq_nil_iff.2 fun m hm => ?_
    obtain ⟨a, ha, rfl⟩ := List.mem_map.1 hm
    obtain ⟨f, -, ha⟩ := List.mem_flatMap.1 ha
    simp [isConstructor, Addition.declared, returns_around ha]
  rw [hdeclared, declarations_header hr.adds hr.definesOnly, List.filter_append, haround,
    List.append_nil, ← hdeclared]

variable {spec : Spec} (hheader : headerSteps spec = r.header s)
  (hsource : sourceSteps spec = r.source s) (hjson : .json ∈ (HasHead.head s).features.toList)
include hheader hsource hjson

theorem written?_eq (label? : String → Option String) :
    written? spec label? = write label? x.writing := by
  have hfilter := hr.filter_definitions hjson "to_json" (by decide)
  rw [written?, serializer?, hheader, hsource, hfilter]; rfl

theorem recovered?_eq (j : Tree) : recovered? spec j =
    read (constructorsOf spec) (qualified (HasHead.head s)) j [] x.reading := by
  have hfilter := hr.filter_definitions hjson "from_json" (by decide)
  rw [recovered?, serializer?, hheader, hsource, hfilter]; rfl

end Renderer.IsFilled

end Serializers

/-! ### Structs -/

namespace StructSpec

theorem isStatic_inside (s : StructSpec) : ∀ m ∈ mentionsOf (beside s.toHead) (renderer.type s),
    m.function.isStatic = false := fun m hm => by
  rw [mentions_type] at hm
  obtain ⟨g, hg, rfl⟩ := List.mem_map.1 hm
  exact forall_memberFunctions (P := (·.isStatic = false)) rfl (fun _ => rfl) (fun _ => rfl) g hg

theorem isStatic_outside (s : StructSpec) (site : Site) :
    ∀ m ∈ mentionsOf site (renderer.members s), m.function.isStatic = false := fun m hm => by
  rw [show renderer.members s = memberSteps s from rfl, mentions_members] at hm
  obtain ⟨g, hg, rfl⟩ := List.mem_map.1 hm
  rcases List.mem_cons.1 hg with rfl | hg
  · rfl
  · obtain ⟨f, -, rfl⟩ := List.mem_map.1 hg; rfl

theorem isFilled (s : StructSpec) :
    renderer.IsFilled s ((filling s).members s.toHead) (filling s) where
  adds := registry_adds s
  unheaded := unheaded_cons (fun _ _ => rfl) _
  definesOnly := definesOnly_members s
  ofType := isStatic_inside s
  ofMembers := isStatic_outside s _
  ofFeatures := Filling.forall_members _ _ fun _ _ => rfl

theorem constructorsOf_eq (s : StructSpec) : constructorsOf (.struct s) =
    [s.fields.map fun f => ⟨f.type ++ " const &", f.name⟩] := by
  have hmembers : (memberFunctions s).filter (·.returns.isNone) = constructors s := by
    have hconstructors : (constructors s).filter (·.returns.isNone) = constructors s := by
      rw [constructors]; split <;> rfl
    have hoperators : ∀ g ∈ operators s, ¬g.returns.isNone :=
      forall_operators fun _ => Bool.false_ne_true
    have haccessors : ∀ g ∈ accessors s, ¬g.returns.isNone :=
      List.forall_mem_map.2 fun _ _ => Bool.false_ne_true
    rw [memberFunctions, List.filter_append, List.filter_append, hconstructors,
      List.filter_eq_nil_iff.2 hoperators, List.filter_eq_nil_iff.2 haccessors, List.append_nil,
      List.append_nil]
  have hcongr : (isConstructor ∘ fun g => (⟨within s.toHead, g, false⟩ : Mention)) =
      (·.returns.isNone) := funext fun g => by simp [isConstructor, within]
  have hheader : (mentionsOf Site.top (headerSteps (.struct s))).filter isConstructor =
      (constructors s).map fun g => ⟨within s.toHead, g, false⟩ := by
    show (mentionsOf Site.top (renderer.header s)).filter isConstructor = _
    rw [(isFilled s).filter_constructors]
    show (mentionsOf (beside s.toHead) (renderer.type s)).filter isConstructor = _
    rw [mentions_type, List.filter_map, hcongr, hmembers]
  rw [constructorsOf, hheader, constructors]
  cases hfields : s.fields with
  | nil => rfl
  | cons f fs => simp [constructor, hfields]

/-- What an object is read from: its fields, as they are read through it. -/
def members (s : StructSpec) : List (String × Datum) :=
  s.fields.map fun f => (f.jsonKey, .value (access "x." f))

theorem datum_access (f : StructField) : datum (access "x." f) = .value (access "x." f) :=
  datum_eq_value (by rw [access]; split <;> simp)

theorem write_writeBody (s : StructSpec) (label? : String → Option String) :
    write label? (writeBody s) =
      some (.object ((members s).reverse ++ [(typeKey, .text s.name)])) := by
  rw [write, writeBody, written, List.map_cons, List.foldlM_cons, writeStep_assignKey, datum_literal]
  show (List.map _ _).foldlM (writeStep label?) (.object [(typeKey, .text s.name)]) = _
  rw [foldlM_assignKey (writeStep_assignKey label?), members, List.map_map]
  simp [Function.comp_def, datum_access]

/-- Every field is found under its key, the one that is called like the tag as well. -/
theorem at?_jsonKey {s : StructSpec} (hkeys : (s.fields.map (·.jsonKey)).Nodup) {f : StructField}
    (hf : f ∈ s.fields) :
    Tree.at? f.jsonKey (.object ((members s).reverse ++ [(typeKey, .text s.name)])) =
      some (.value (access "x." f)) := by
  refine lookup_append ?_ (List.mem_reverse.2 (List.mem_map.2 ⟨f, hf, rfl⟩))
  rw [List.map_reverse, List.nodup_reverse, members, List.map_map]
  exact hkeys

theorem recovered_written (s : StructSpec) (hjson : .json ∈ s.features.toList)
    (hkeys : (s.fields.map (·.jsonKey)).Nodup) (label? : String → Option String) :
    (written? (.struct s) label?).bind (recovered? (.struct s)) =
      some (.built (s.fields.map fun f => ⟨f.type ++ " const &", f.name⟩)
        (s.fields.map fun f => .value (access "x." f))) := by
  rw [(isFilled s).written?_eq rfl rfl hjson]
  show (write label? (writeBody s)).bind _ = _
  rw [write_writeBody, Option.bind_some, (isFilled s).recovered?_eq rfl rfl hjson, constructorsOf_eq]
  show read _ (qualified s.toHead) _ [] (readBody s) = _
  have harguments : arguments? (.object ((members s).reverse ++ [(typeKey, .text s.name)]))
      (s.fields.map fun f => ⟨f.type ++ " const &", f.name⟩)
      (joinWith ", " (s.fields.map jsonArgument)) =
        some (s.fields.map fun f => .value (access "x." f)) :=
    arguments?_get fun f hf => at?_jsonKey hkeys hf
  rw [readBody, read_return _ _ _ _ (by simp only [String.append_assoc]; rfl)]
  refine returned?_built _ _ _ _ ?_
  rw [List.filterMap_cons, harguments]; rfl

end StructSpec

/-! ### Enums -/

namespace EnumSpec

def filling (s : EnumSpec) : Filling where
  comparison _ := []
  hash := hashBody
  reading := readBody s
  writing := writeBody s
  generator := generator s
  format := fmtBody s
  param := param s
  fmtParam := s.name

theorem mute_readBody (s : EnumSpec) : Mute (readBody s) := by
  refine Mute.append (mute_line _) (mute_ifChain (fun arm harm => ?_) (mute_line _))
  obtain ⟨v, -, rfl⟩ := List.mem_map.1 harm
  exact mute_line _

theorem mute_writeBody (s : EnumSpec) : Mute (writeBody s) :=
  mute_switch _ ((mute_map (fun _ _ => rfl) _).append fun _ => rfl)

theorem mute_fmtBody (s : EnumSpec) : Mute (fmtBody s) :=
  mute_switch _ ((mute_map (fun _ _ => rfl) _).append fun _ => rfl)

theorem registry_adds (s : EnumSpec) :
    registry.Adds s (fun _ => []) ((filling s).around s.toHead) := fun f => by
  have hmute : (filling s).IsMute :=
    ⟨fun _ _ => rfl, mute_line _, mute_readBody s, mute_writeBody s, mute_fmtBody s⟩
  cases f with
  | eq | ord => exact adds_nothing s
  | hash => exact adds_hash hmute rfl rfl
  | json => exact adds_json hmute rfl rfl rfl
  | rapidcheck => exact adds_arbitrary rfl
  | fmt => exact adds_fmt hmute rfl rfl

theorem mute_type (s : EnumSpec) : Mute (renderer.type s) := fun site => by
  have hvalues : ∀ vs : List Enumerator, mentionsOfItems site (vs.map fun v => [.text v.name]) = [] :=
    fun vs => by rw [mentionsOfItems_eq, List.flatMap_map]; simp
  simp [renderer, typeSteps, hvalues]

theorem isFilled (s : EnumSpec) : renderer.IsFilled s (fun _ => []) (filling s) where
  adds := registry_adds s
  unheaded := unheaded_cons (fun _ _ => rfl) _
  definesOnly := definesOnly_nil
  ofType m hm := by rw [mute_type] at hm; cases hm
  ofMembers _ hm := absurd hm List.not_mem_nil
  ofFeatures _ _ ha := absurd ha List.not_mem_nil

/-- An enumerator is read as a text. -/
theorem local?_text :
    local? "std::string as_str = j.get<std::string>();" = some ("as_str", none) := by decide +kernel

/-- Over an enumerator, the code switches on the value itself. -/
def label? (s : EnumSpec) (v : Enumerator) (subject : String) : Option String :=
  if subject = "x" then some (enumerator s v) else none

variable {s : EnumSpec} {v : Enumerator} (hv : v ∈ s.values)
include hv

theorem write_writeBody (hnames : (s.values.map (·.name)).Nodup) :
    write (label? s v) (writeBody s) = some (.leaf (.text v.jsonKey)) := by
  have hlabel : ∀ w ∈ s.values, enumerator s w = enumerator s v → w = v := fun w hw h =>
    List.inj_on_of_nodup_map hnames hw hv ((String.append_right_inj _).1 h)
  have hdone := doneFor_case (enumerator s)
    (fun w => [.line ("j = " ++ Quoted.literal w.jsonKey ++ ";")])
    [.default false [throwUnknownValue s]] hv hlabel
  rw [write, writeBody, List.foldlM_cons, writeStep_switch (if_pos rfl), hdone, List.foldlM_cons,
    writeSimple, writeLine_replace]
  rfl

theorem recovered_written (hjson : .json ∈ s.features.toList)
    (hkeys : (s.values.map (·.jsonKey)).Nodup) (hnames : (s.values.map (·.name)).Nodup) :
    (written? (.enum s) (label? s v)).bind (recovered? (.enum s)) =
      some (.named (enumerator s v)) := by
  have hkey : ∀ w ∈ s.values, w.jsonKey = v.jsonKey → w = v := fun w hw h =>
    List.inj_on_of_nodup_map hkeys hw hv h
  have hbranch := branch?_compare "as_str" Enumerator.jsonKey
    (fun w => [.line ("return " ++ enumerator s w ++ ";")])
    [.line ("throw std::runtime_error(\"Unknown " ++ s.name ++ " value \" + as_str);")] hv hkey
  rw [(isFilled s).written?_eq rfl rfl hjson]
  show (write (label? s v) (writeBody s)).bind _ = _
  rw [write_writeBody hv hnames, Option.bind_some, (isFilled s).recovered?_eq rfl rfl hjson]
  show read _ (qualified s.toHead) _ [] (readBody s) = _
  rw [readBody, read_local _ _ [] local?_text rfl]
  exact (read_ifChain _ _ _ hbranch _).trans (returned?_named _ _ _ _)

end EnumSpec

/-! ### Variants -/

namespace VariantSpec

/-- What is declared in the type and defined outside of it. -/
theorem isStatic_declared (s : VariantSpec) :
    ∀ a ∈ constructors s ++ operators s ++ accessors s, a.function.isStatic = false :=
  forall_declared (fun _ => rfl) (forall_methods (fun _ _ => rfl) (fun _ _ => rfl) fun _ _ => rfl)

theorem isStatic_type (s : VariantSpec) : ∀ m ∈ mentionsOf (beside s.toHead) (renderer.type s),
    m.function.isStatic = false := fun m hm => by
  have hdeclared := isStatic_declared s
  simp only [List.mem_append] at hdeclared
  rw [mentions_type, List.mem_append, List.mem_append] at hm
  rcases hm with (hm | hm) | hm
  · obtain ⟨a, ha, rfl⟩ := List.mem_map.1 hm
    exact hdeclared a (.inl (.inl ha))
  · exact (mentions_inline s m hm).2.2
  · obtain ⟨a, ha, rfl⟩ := List.mem_map.1 hm
    rcases List.mem_append.1 ha with ha | ha
    · exact hdeclared a (.inl (.inr ha))
    · exact hdeclared a (.inr ha)

theorem isStatic_outside (s : VariantSpec) :
    ∀ m ∈ mentionsOf (beside s.toHead) (renderer.members s), m.function.isStatic = false :=
  fun m hm => by
    have hdefined := List.mem_filter.2 ⟨hm, definesOnly_members s _ m hm⟩
    rw [← map_mention_definitionsOf _ [], show renderer.members s = memberSteps s from rfl,
      definitions_memberSteps, List.map_map] at hdefined
    obtain ⟨a, ha, rfl⟩ := List.mem_map.1 hdefined
    refine isStatic_declared s a ?_
    simp only [List.mem_append] at ha ⊢
    exact ha.elim (fun ha => .inl (.inl ha)) .inr

theorem isFilled (s : VariantSpec) :
    renderer.IsFilled s ((filling s).members s.toHead) (filling s) where
  adds := registry_adds s
  unheaded := unheaded_type s
  definesOnly := definesOnly_members s
  ofType := isStatic_type s
  ofMembers := isStatic_outside s
  ofFeatures := Filling.forall_members _ _ fun _ _ => rfl

theorem returns_methods (s : VariantSpec) :
    ∀ a ∈ operators s ++ accessors s, a.function.returns.isNone = false :=
  forall_methods (fun _ _ => rfl) (fun _ _ => rfl) fun _ _ => rfl

theorem constructorsOf_eq {s : VariantSpec} {a : Arm} (ha : a ∈ s.arms) :
    constructorsOf (.variant s) = s.arms.map fun a => [⟨a.type ++ " const &", "v"⟩] := by
  have hfilter : (mentionsOf (beside s.toHead) (renderer.type s)).filter isConstructor =
      (constructors s).map Addition.declared := by
    have hconstructors : ((constructors s).map Addition.declared).filter isConstructor =
        (constructors s).map Addition.declared := by
      refine List.filter_eq_self.2 fun m hm => ?_
      rw [constructors, List.map_map] at hm
      obtain ⟨b, -, rfl⟩ := List.mem_map.1 hm; rfl
    have hinline : (mentionsOf (within s.toHead) (inlineSteps s)).filter isConstructor = [] :=
      List.filter_eq_nil_iff.2 fun m hm => by simp [isConstructor, (mentions_inline s m hm).2.1]
    have hothers : ((operators s ++ accessors s).map Addition.declared).filter isConstructor = [] := by
      refine List.filter_eq_nil_iff.2 fun m hm => ?_
      obtain ⟨b, hb, rfl⟩ := List.mem_map.1 hm
      simp [isConstructor, Addition.declared, returns_methods s b hb]
    rw [mentions_type, List.filter_append, List.filter_append, hconstructors, hinline, hothers,
      List.append_nil, List.append_nil]
  have hheader : (mentionsOf Site.top (headerSteps (.variant s))).filter isConstructor =
      (constructors s).map Addition.declared := (isFilled s).filter_constructors.trans hfilter
  have hparams : ((constructors s).map Addition.declared).map (·.function.params) =
      s.arms.map fun a => [⟨a.type ++ " const &", "v"⟩] := by
    rw [constructors, List.map_map, List.map_map]; rfl
  rw [constructorsOf, hheader, hparams]
  cases harms : s.arms with
  | nil => rw [harms] at ha; cases ha
  | cons b bs => rfl

/-- The key of an alternative is read from the member for it. -/
theorem local?_key : local? "std::string key = j.at(\"type\").template get<std::string>();" =
    some ("key", some "type") := by decide +kernel

/-- Over an alternative, the code switches on its number. -/
def label? (i : Nat) (subject : String) : Option String :=
  if subject = "x.index()" then some (toString i) else none

/-- How an alternative is read through the object. -/
def payload (a : Arm) : String := "x.template get<" ++ a.type ++ ">()"

/-- What an alternative is written as. -/
def members (s : VariantSpec) (a : Arm) : List (String × Datum) :=
  [("value", .value (payload a)), ("type", .text a.jsonKey), (typeKey, .text s.name)]

variable {s : VariantSpec} {a : Arm} {i : Nat} (ha : (a, i) ∈ s.arms.zipIdx)
include ha

/-- A switch over the index does what it says of the alternative. -/
theorem writeStep_index (j : Tree) (body : Arm → List Step) :
    writeStep (label? i) j (indexSwitch s "x.index()" true body) =
      (body a).foldlM writeSimple j := by
  have hlabel : ∀ y ∈ s.arms.zipIdx, toString y.2 = toString i → y = (a, i) := fun y hy h => by
    have hindex := toString_injective h
    rw [List.mem_zipIdx_iff_getElem?, hindex] at hy
    rw [List.mem_zipIdx_iff_getElem?, hy] at ha
    exact Prod.ext (Option.some.inj ha) hindex
  have hdone := doneFor_case (fun y => toString y.2) (fun y => body y.1)
    [.default false [.line (throwUnknownIndex "x.index()" s.name)]] ha hlabel
  -- the cases of the switch match on pairs, those of the lemma project from them
  rw [indexSwitch, writeStep_switch (if_pos rfl)]
  exact congrArg (List.foldlM writeSimple j) hdone

theorem write_writeBody : write (label? i) (writeBody s) = some (.object (members s a)) := by
  have htag : writeStep (label? i) .null (assignKey typeKey (Quoted.literal s.name)) =
      some (.object [(typeKey, .text s.name)]) := by
    rw [writeStep_assignKey, datum_literal]; rfl
  have hwrites := foldlM_assignKey writeSimple_assignKey
    [("type", Quoted.literal a.jsonKey), ("value", payload a)] [(typeKey, .text s.name)]
  have hpayload : datum (payload a) = .value (payload a) := datum_eq_value <| by
    show ("x.template get<" ++ a.type ++ ">()").toList.head? ≠ _
    simp
  simp only [List.map_cons, List.map_nil, datum_literal, hpayload] at hwrites
  rw [write, writeBody, List.foldlM_cons, htag]
  show ((writeStep (label? i) _ (indexSwitch s "x.index()" true _)).bind _) = _
  rw [writeStep_index ha]
  exact congrArg (Option.bind · _) hwrites

/-- Of all constructors that of the alternative alone takes what is read. -/
theorem filterMap_constructors (htypes : (s.arms.map (·.type)).Nodup) :
    ((s.arms.map fun b => [(⟨b.type ++ " const &", "v"⟩ : Param)]).filterMap fun ps =>
      (arguments? (.object (members s a)) ps
        ("j.at(" ++ Quoted.literal "value" ++ ").template get<" ++ a.type ++ ">()")).map (ps, ·)) =
      [([⟨a.type ++ " const &", "v"⟩], [.value (payload a)])] := by
  have hmem : a ∈ s.arms := List.fst_mem_of_mem_zipIdx ha
  have hvalue : ∀ b ∈ [a], Tree.at? "value" (.object (members s a)) = some (.value (payload b)) :=
    fun b hb => by rw [List.mem_singleton.1 hb]; rfl
  have hown := @arguments?_get Arm _ (fun _ => "value") Arm.type (fun _ => "v") _ [a] hvalue
  rw [List.map_singleton, List.map_singleton, joinWith, String.intercalate_singleton] at hown
  have hother : ∀ b ∈ s.arms, b ≠ a → arguments? (.object (members s a))
      [⟨b.type ++ " const &", "v"⟩]
      ("j.at(" ++ Quoted.literal "value" ++ ").template get<" ++ a.type ++ ">()") = none :=
    fun b hb hne => Option.eq_none_iff_forall_ne_some.2 fun ds hds =>
      hne (List.inj_on_of_nodup_map htypes hb hmem (type_eq_of_arguments? hds))
  rw [List.filterMap_map]
  refine filterMap_eq_singleton (List.Nodup.of_map _ htypes) hmem ?_ fun b hb hne => ?_
  · show Option.map _ (arguments? _ _ _) = _
    rw [hown]; rfl
  · show Option.map _ (arguments? _ _ _) = _
    rw [hother b hb hne]; rfl

theorem recovered_written (hjson : .json ∈ s.features.toList)
    (hkeys : (s.arms.map (·.jsonKey)).Nodup) (htypes : (s.arms.map (·.type)).Nodup) :
    (written? (.variant s) (label? i)).bind (recovered? (.variant s)) =
      some (.built [⟨a.type ++ " const &", "v"⟩] [.value (payload a)]) := by
  have hmem : a ∈ s.arms := List.fst_mem_of_mem_zipIdx ha
  have hkey : ∀ b ∈ s.arms, b.jsonKey = a.jsonKey → b = a := fun b hb h =>
    List.inj_on_of_nodup_map hkeys hb hmem h
  have hbranch := branch?_compare "key" Arm.jsonKey
    (fun b => [.line ("return " ++ qualified s.toHead ++ "\x7bj.at(\"value\").template get<" ++
      b.type ++ ">()\x7d;")])
    [.line ("throw std::runtime_error(\"Unknown type key \" + key + \" for type " ++ s.name ++
        "\");")] hmem hkey
  -- the key is written out in the code, while arguments are known by the literals of their keys
  have hopening : "\x7bj.at(\"value\").template get<" =
      "\x7b" ++ ("j.at(" ++ Quoted.literal "value" ++ ").template get<") := by decide +kernel
  have hclosing : ">()\x7d;" = ">()" ++ "\x7d;" := rfl
  rw [(isFilled s).written?_eq rfl rfl hjson]
  show (write (label? i) (writeBody s)).bind _ = _
  rw [write_writeBody ha, Option.bind_some, (isFilled s).recovered?_eq rfl rfl hjson,
    constructorsOf_eq hmem]
  show read _ (qualified s.toHead) _ [] (readBody s) = _
  rw [readBody, read_local _ _ [] local?_key rfl]
  refine (read_ifChain _ _ _ hbranch _).trans ?_
  have hbuilt := returned?_built _ (qualified s.toHead) _ _ (filterMap_constructors ha htypes)
  rw [hopening, hclosing]
  simpa only [String.append_assoc] using hbuilt

end VariantSpec

/-! ### All kinds of specs -/

namespace Serial

/-- The keys under which the parts or values of a spec stand in JSON. -/
def jsonKeys : Spec → List String
  | .struct s => s.fields.map (·.jsonKey)
  | .enum s => s.values.map (·.jsonKey)
  | .variant s => s.arms.map (·.jsonKey)

/-- What tells the values of a type from each other, where a type has several kinds of them. -/
def alternatives : Spec → List String
  | .struct _ => []
  | .enum s => s.values.map (·.name)
  | .variant s => s.arms.map (·.type)

/-- The values of the type of a spec: the labels by which the code knows one, and what has to be read
for it. For a struct that is each field in its place, for an enum the enumerator, for a variant the
alternative with what it holds. -/
def values : Spec → List ((String → Option String) × Reading)
  | .struct s => [(fun _ => none, .built (s.fields.map fun f => ⟨f.type ++ " const &", f.name⟩)
      (s.fields.map fun f => .value (StructSpec.access "x." f)))]
  | .enum s => s.values.map fun v => (EnumSpec.label? s v, .named (EnumSpec.enumerator s v))
  | .variant s => s.arms.zipIdx.map fun (a, i) => (VariantSpec.label? i,
      .built [⟨a.type ++ " const &", "v"⟩] [.value (VariantSpec.payload a)])

/-- The generated code reads every value back as the one that it wrote. -/
theorem reading_undoes_writing (s : Spec) (hjson : .json ∈ s.head.features.toList)
    (hkeys : (jsonKeys s).Nodup) (halternatives : (alternatives s).Nodup) :
    ∀ v ∈ values s, (written? s v.1).bind (recovered? s) = some v.2 := fun v hv => by
  cases s with
  | struct s => rw [List.mem_singleton.1 hv]; exact StructSpec.recovered_written s hjson hkeys _
  | enum s =>
    obtain ⟨e, he, rfl⟩ := List.mem_map.1 hv
    exact EnumSpec.recovered_written he hjson hkeys halternatives
  | variant s =>
    obtain ⟨⟨a, i⟩, ha, rfl⟩ := List.mem_map.1 hv
    exact VariantSpec.recovered_written ha hjson hkeys halternatives

/-- A struct with a field under the key of the tag, and with a key that has to be escaped. -/
def tagged : Spec := .struct
  { name := "Entry", space := none, params := [], features := .ofList [.json], includes := [],
    sourceIncludes := [], postIncludes := [], forwards := [], doc := none,
    fields := [⟨"kind", "std::string", none, false, typeKey⟩, ⟨"next", "Entry", none, true, "\"\\\n"⟩] }

/-- A variant whose keys are those of the JSON around them. -/
def wrapped : Spec := .variant
  { name := "Either", space := some "app", params := ["T"], features := .ofList [.json],
    includes := [], sourceIncludes := [], postIncludes := [], forwards := [], doc := none,
    arms := [⟨"T", none, "type", "left"⟩, ⟨"int", none, "value", "right"⟩],
    explicitConstructors := true }

theorem reading_undoes_writing_reserved :
    ((written? tagged fun _ => none).bind (recovered? tagged) = some (.built
      [⟨"std::string const &", "kind"⟩, ⟨"Entry const &", "next"⟩]
      [.value "x.kind", .value "x.get_next()"])) ∧
    ((written? wrapped (VariantSpec.label? 1)).bind (recovered? wrapped) =
      some (.built [⟨"int const &", "v"⟩] [.value "x.template get<int>()"])) :=
  ⟨reading_undoes_writing tagged (by decide) (by decide) (by decide) _ (.head _),
    reading_undoes_writing wrapped (by decide) (by decide) (by decide) _ (.tail _ (.head _))⟩

end Serial

end TypeGen.Render
