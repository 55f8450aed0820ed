import Mathlib.Data.List.Nodup
import TypeGen.Proofs.Render.Definition
import TypeGen.Render.Struct

/-!
Declarations and definitions of structs. What the header declares is what header and source define,
function by function and namespace by namespace; a struct that has no fields but is compared gets the
definition of a constructor that is not declared.
-/

namespace TypeGen.Render.StructSpec

open TypeGen.Code TypeGen.Spec

/-- The functions that a header declares. -/
def declarations (s : StructSpec) : List Mention :=
  (mentionsOf Site.top (renderer.header s)).filter (!·.defines)

/-- The functions that header and source define outside of the type. -/
def definitions (s : StructSpec) : List Mention :=
  (mentionsOf Site.top (renderer.header s) ++ mentionsOf Site.top (renderer.source s)).filter
    fun m => m.defines && m.site.owner.isNone

/-! ### Features -/

theorem mute_hashBody (s : StructSpec) : Mute (hashBody s) :=
  ((mute_line _).append (mute_map (fun _ _ => rfl) s.fields)).append (mute_line _)

theorem mute_writeBody (s : StructSpec) : Mute (writeBody s) := mute_map (fun _ _ => rfl) (written s)

theorem mute_fmtBody (s : StructSpec) : Mute (fmtBody s) := by
  have hends : Mute [.line "oss << \">\";", .line "return oss.str();"] := fun _ => rfl
  have hstart : Mute [.line "std::ostringstream oss;", .line ("oss << \"<" ++ s.name ++ "\";")] :=
    fun _ => rfl
  exact (hstart.append (mute_map (fun _ _ => rfl) s.fields)).append hends

def filling (s : StructSpec) : Filling where
  comparison := comparisonBody s
  hash := hashBody s
  reading := readBody s
  writing := writeBody s
  generator := generator s
  format := fmtBody s
  param := constRef s
  fmtParam := fmtParam s

theorem registry_adds (s : StructSpec) : registry.Adds s ((filling s).members s.toHead)
    ((filling s).around s.toHead) := fun f => by
  have hmute : (filling s).IsMute :=
    ⟨fun _ => mute_line _, mute_hashBody s, mute_line _, mute_writeBody s, mute_fmtBody s⟩
  cases f with
  | eq | ord => exact adds_comparison hmute rfl
  | hash => exact adds_hash hmute rfl rfl
  | json => exact adds_json hmute rfl rfl rfl
  | rapidcheck => exact adds_arbitrary rfl
  | fmt => exact adds_fmt hmute rfl rfl

/-! ### The type and its members -/

def accessors (s : StructSpec) : List Function := (s.fields.filter (·.indirect)).map (accessor s)

/-- The constructor, for a struct with fields. -/
def constructors (s : StructSpec) : List Function := if s.fields.isEmpty then [] else [constructor s]

def operators (s : StructSpec) : List Function :=
  (additions s ((filling s).members s.toHead)).map (·.function)

def freeFunctions (s : StructSpec) : List Addition := additions s ((filling s).around s.toHead)

/-- The functions that the type declares. -/
def memberFunctions (s : StructSpec) : List Function := constructors s ++ operators s ++ accessors s

/-- What holds of every comparison holds of the operators. -/
theorem forall_operators {s : StructSpec} {P : Function → Prop}
    (h : ∀ op, P (comparison s.toHead op)) : ∀ g ∈ operators s, P g := by
  refine List.forall_mem_map.2 fun a ha => ?_
  obtain ⟨f, -, ha⟩ := List.mem_flatMap.1 ha
  exact Filling.forall_members _ _ (P := (P ·.function)) (fun op _ => h op) f a ha

theorem forall_memberFunctions {s : StructSpec} {P : Function → Prop} (hconstructor : P (constructor s))
    (hoperator : ∀ op, P (comparison s.toHead op)) (haccessor : ∀ f, P (accessor s f)) :
    ∀ g ∈ memberFunctions s, P g := by
  have hconstructors : ∀ g ∈ constructors s, P g := fun g hg => by
    rw [constructors] at hg
    split at hg
    · cases hg
    · rw [List.mem_singleton.1 hg]; exact hconstructor
  refine List.forall_mem_append.2 ⟨List.forall_mem_append.2 ⟨hconstructors, forall_operators hoperator⟩, ?_⟩
  exact List.forall_mem_map.2 fun f _ => haccessor f

theorem map_mention_operators (s : StructSpec) {mention : Addition → Mention} {site : Site}
    {defines : Bool} (h : ∀ op body, mention ⟨within s.toHead, comparison s.toHead op, body⟩ =
      ⟨site, comparison s.toHead op, defines⟩) :
    (additions s ((filling s).members s.toHead)).map mention =
      (operators s).map fun g => ⟨site, g, defines⟩ := by
  rw [operators, List.map_map]
  refine List.map_congr_left fun a ha => ?_
  obtain ⟨f, -, ha⟩ := List.mem_flatMap.1 ha
  exact Filling.forall_members _ _ (P := fun a => mention a = ⟨site, a.function, defines⟩) h f a ha

theorem mentions_fieldSteps (s : StructSpec) (site : Site) (f : StructField) :
    mentionsOf site (fieldSteps s f) =
      if f.indirect then [⟨site, accessor s f, false⟩] else [] := by
  rw [fieldSteps, mentionsOf_append, mute_doc]
  cases f.indirect <;> rfl

theorem mute_privateSteps (s : StructSpec) : Mute (privateSteps s) := by
  have hstart : Mute [.blank, .dedent, .line "private:", .indent] := fun _ => rfl
  exact hstart.append (mute_map (fun _ _ => rfl) _)

theorem mentions_fields (s : StructSpec) (site : Site) :
    mentionsOf site (s.fields.flatMap (fieldSteps s)) =
      (accessors s).map fun g => ⟨site, g, false⟩ := by
  rw [mentionsOf_flatMap, accessors, List.map_map]
  induction s.fields with
  | nil => rfl
  | cons f fs ih =>
    rw [List.flatMap_cons, ih, mentions_fieldSteps, List.filter_cons]
    cases f.indirect <;> rfl

theorem mentions_type (s : StructSpec) : mentionsOf (beside s.toHead) (renderer.type s) =
    (memberFunctions s).map fun g => ⟨within s.toHead, g, false⟩ := by
  have hconstructor : mentionsOf (within s.toHead) (if s.fields.isEmpty then []
      else [.line (s.name ++ "() = delete;"), .declare (constructor s)]) =
      (constructors s).map fun g => ⟨within s.toHead, g, false⟩ := by
    rw [constructors]; split <;> rfl
  have hoperators : mentionsOf (within s.toHead) (registry.emitAll .memberDecls s) =
      (operators s).map fun g => ⟨within s.toHead, g, false⟩ :=
    (registry_adds s).mentions_memberDecls.trans (map_mention_operators s fun _ _ => rfl)
  have hblank : Mute (if s.fields.isEmpty then [] else [.blank]) := fun _ => by split <;> rfl
  have hprivate : Mute (if s.hasIndirect then privateSteps s else []) := fun site => by
    split
    · exact mute_privateSteps s site
    · rfl
  show mentionsOf (within s.toHead) _ ++ [] = _
  simp only [mentionsOf_append, hconstructor, hoperators, mentions_fields,
    hblank (within s.toHead), hprivate (within s.toHead), List.append_nil, memberFunctions, List.map_append]

theorem mentions_members (s : StructSpec) (site : Site) : mentionsOf site (memberSteps s) =
    (constructor s :: accessors s).map fun g => ⟨site, g, true⟩ := by
  rw [memberSteps, mentionsOf_append, mentions_memberDef _ _ (fun _ => rfl), mentionsOf_flatMap,
    accessors, List.map_cons, List.map_map, List.map_eq_flatMap]
  refine congrArg (_ :: ·) (List.flatMap_congr fun f _ => ?_)
  exact mentions_memberDef s.toHead site (mute_line _)

theorem definesOnly_members (s : StructSpec) : DefinesOnly (renderer.members s) :=
  fun site m hm => by
    rw [show renderer.members s = memberSteps s from rfl, mentions_members] at hm
    obtain ⟨g, -, rfl⟩ := List.mem_map.1 hm; rfl

/-! ### Header and source -/

/-- Some feature that is asked for adds operators to the type. -/
def IsCompared (s : StructSpec) : Prop := .eq ∈ s.features.toList ∨ .ord ∈ s.features.toList

instance (s : StructSpec) : Decidable (IsCompared s) := inferInstanceAs (Decidable (_ ∨ _))

theorem hasMemberDefs_iff (s : StructSpec) : registry.hasMemberDefs s = true ↔ IsCompared s := by
  rw [Registry.hasMemberDefs, List.any_eq_true]
  constructor
  · rintro ⟨e, he, hm⟩
    obtain ⟨f, hf, hget⟩ := List.mem_filterMap.1 he
    cases f with
    | eq => exact .inl hf
    | ord => exact .inr hf
    | hash | json | rapidcheck | fmt => cases hget; cases hm
  · rintro (hf | hf)
    · exact ⟨_, List.mem_filterMap.2 ⟨.eq, hf, rfl⟩, rfl⟩
    · exact ⟨_, List.mem_filterMap.2 ⟨.ord, hf, rfl⟩, rfl⟩

theorem operators_eq_nil {s : StructSpec} (h : ¬ IsCompared s) : operators s = [] := by
  refine List.map_eq_nil_iff.2 (List.flatMap_eq_nil_iff.2 fun f hf => ?_)
  cases f with
  | eq => exact absurd (.inl hf) h
  | ord => exact absurd (.inr hf) h
  | hash | json | rapidcheck | fmt => rfl

/-- Whatever is defined in the namespace of the type. -/
def definedMembers (s : StructSpec) : List Function :=
  if s.fields ≠ [] ∨ IsCompared s then constructor s :: accessors s ++ operators s else []

theorem mentions_definitions_eq (s : StructSpec) : mentionsOf Site.top (renderer.definitions s) =
    ((definedMembers s).map fun g => ⟨beside s.toHead, g, true⟩) ++
      (freeFunctions s).map fun a => (a.defined s.toHead).mention := by
  have hguard : (renderer.hasMembers s || registry.hasMemberDefs s) = true ↔
      s.fields ≠ [] ∨ IsCompared s := by
    rw [Bool.or_eq_true, ← hasMemberDefs_iff]
    simp [renderer]
  have hoperators : mentionsOf (beside s.toHead) (registry.emitAll .memberDefs s) =
      (operators s).map fun g => ⟨beside s.toHead, g, true⟩ :=
    (registry_adds s).mentions_memberDefs.trans (map_mention_operators s fun _ _ => rfl)
  have hmembers : mentionsOf (beside s.toHead) (renderer.members s) =
      (constructor s :: accessors s).map fun g => ⟨beside s.toHead, g, true⟩ := mentions_members s _
  rw [mentions_definitions, show renderer.registry = registry from rfl,
    (registry_adds s).mentions_defs]
  refine congrArg (· ++ _) ?_
  show (if _ then mentionsOf (beside s.toHead) _ ++ mentionsOf (beside s.toHead) _ else []) = _
  rw [hmembers, hoperators, definedMembers]
  by_cases h : s.fields ≠ [] ∨ IsCompared s
  · rw [if_pos (hguard.2 h), if_pos h, ← List.map_append]
  · rw [if_neg (mt hguard.1 h), if_neg h]; rfl

theorem filter_map_of_forall {α β : Type} {f : α → β} {p : β → Bool} (h : ∀ x, p (f x) = true)
    (xs : List α) : (xs.map f).filter p = xs.map f :=
  List.filter_eq_self.2 fun y hy => by obtain ⟨x, -, rfl⟩ := List.mem_map.1 hy; exact h x

theorem filter_map_eq_nil {α β : Type} {f : α → β} {p : β → Bool} (h : ∀ x, p (f x) = false)
    (xs : List α) : (xs.map f).filter p = [] :=
  List.filter_eq_nil_iff.2 fun y hy => by obtain ⟨x, -, rfl⟩ := List.mem_map.1 hy; simp [h x]

theorem declarations_eq (s : StructSpec) : declarations s =
    ((memberFunctions s).map fun g => ⟨within s.toHead, g, false⟩) ++
      (freeFunctions s).map Addition.declared := by
  rw [declarations, Renderer.declarations_header (registry_adds s) (definesOnly_members s)]
  show (mentionsOf (beside s.toHead) (renderer.type s)).filter _ ++ _ = _
  rw [mentions_type, filter_map_of_forall fun _ => rfl]
  rfl

theorem definitions_eq (s : StructSpec) : definitions s =
    ((definedMembers s).map fun g => ⟨beside s.toHead, g, true⟩) ++
      (freeFunctions s).map fun a => (a.defined s.toHead).mention := by
  have htype : (mentionsOf (beside s.toHead) (renderer.type s)).filter
      (fun m => m.defines && m.site.owner.isNone) = [] := by
    rw [mentions_type, filter_map_eq_nil fun _ => rfl]
  have hdecls : (mentionsOf Site.top (registry.emitAll .decls s)).filter
      (fun m => m.defines && m.site.owner.isNone) = [] := by
    rw [(registry_adds s).mentions_decls, filter_map_eq_nil fun _ => rfl]
  have hdefinitions : (mentionsOf Site.top (renderer.definitions s)).filter
      (fun m => m.defines && m.site.owner.isNone) = mentionsOf Site.top (renderer.definitions s) := by
    rw [mentions_definitions_eq, List.filter_append, filter_map_of_forall fun _ => rfl,
      filter_map_of_forall fun _ => rfl]
  -- one of the two files has all definitions, and the other none
  rw [definitions, mentions_header, mentions_source, ← mentions_definitions_eq,
    show renderer.registry = registry from rfl, List.filter_append, List.filter_append,
    List.filter_append]
  show (mentionsOf (beside s.toHead) _).filter _ ++ _ ++ _ ++ _ = _
  rw [htype, hdecls, List.nil_append, List.nil_append]
  split
  · rw [hdefinitions, List.filter_nil, List.append_nil]
  · rw [hdefinitions, List.filter_nil, List.nil_append]

/-! ### The correspondence -/

/-- The constructor of a struct that has no fields but is compared. -/
def surplus (s : StructSpec) : List Function :=
  if s.fields = [] ∧ IsCompared s then [constructor s] else []

theorem definedMembers_perm (s : StructSpec) :
    (definedMembers s).Perm (surplus s ++ memberFunctions s) := by
  have hswap : (constructor s :: accessors s ++ operators s).Perm
      ([constructor s] ++ (operators s ++ accessors s)) :=
    (List.perm_append_comm).cons (constructor s)
  rw [definedMembers, surplus, memberFunctions, constructors]
  by_cases hf : s.fields = []
  · by_cases hc : IsCompared s
    · rw [if_pos (.inr hc), if_pos ⟨hf, hc⟩, if_pos (by rw [hf]; rfl), List.nil_append]
      exact hswap
    · rw [if_neg (by simp [hf, hc]), if_neg (fun h => hc h.2), if_pos (by rw [hf]; rfl),
        operators_eq_nil hc, accessors, hf]
      exact List.Perm.refl []
  · rw [if_pos (.inl hf), if_neg (fun h => hf h.1), if_neg (by simpa using hf), List.nil_append,
      List.append_assoc]
    exact hswap

theorem definitions_perm (s : StructSpec) : ((definitions s).map key).Perm
    ((surplus s).map (s.space.toList, ·) ++ (declarations s).map key) := by
  have hmembers := (definedMembers_perm s).map fun g => (s.space.toList, g)
  rw [List.map_append] at hmembers
  rw [definitions_eq, declarations_eq, List.map_append, List.map_append, List.map_map, List.map_map,
    List.map_map, List.map_map, ← List.append_assoc]
  exact hmembers.append (List.Perm.refl _)

/-- Members are defined under the name of the type, the others under that of the specialization. -/
theorem definition_eq {s : StructSpec} {m : Mention} (hm : m ∈ declarations s) :
    m.function.definition = m.function.signatureAs (qualify m.site.owner m.function.name) := by
  have hscope : ∀ g ∈ memberFunctions s, g.scope = some (unqualified s.toHead) :=
    forall_memberFunctions rfl (fun _ => rfl) fun _ => rfl
  rw [declarations_eq] at hm
  rcases List.mem_append.1 hm with hm | hm
  · obtain ⟨g, hg, rfl⟩ := List.mem_map.1 hm
    rw [Function.definition, hscope g hg]; rfl
  · obtain ⟨a, ha, rfl⟩ := List.mem_map.1 hm
    obtain ⟨f, -, ha⟩ := List.mem_flatMap.1 ha
    exact (isQualified_around _ _ f a ha).name

/-! ### No function twice -/

/-- The names of the operators that a feature adds to a type. -/
def memberNames : Feature → List String
  | .eq => eqOps.map ("operator" ++ ·)
  | .ord => ordOps.map ("operator" ++ ·)
  | _ => []

/-- The names of the functions that a feature adds around a type. -/
def freeNames : Feature → List String
  | .hash => ["operator()"]
  | .json => ["from_json", "to_json"]
  | .rapidcheck => ["arbitrary"]
  | .fmt => ["format_as", "operator<<"]
  | _ => []

theorem map_name_operators (s : StructSpec) :
    (operators s).map (·.name) = s.features.toList.flatMap memberNames := by
  have hnames : ∀ f, ((filling s).members s.toHead f).map (·.function.name) = memberNames f :=
    fun f => by cases f <;> rfl
  rw [operators, List.map_map, additions, List.map_flatMap]
  exact List.flatMap_congr fun f _ => hnames f

theorem map_name_freeFunctions (s : StructSpec) :
    (freeFunctions s).map (·.function.name) = s.features.toList.flatMap freeNames := by
  have hnames : ∀ f, ((filling s).around s.toHead f).map (·.function.name) = freeNames f :=
    fun f => by cases f <;> rfl
  rw [freeFunctions, additions, List.map_flatMap]
  exact List.flatMap_congr fun f _ => hnames f

theorem disjoint_memberNames_freeNames (f g : Feature) :
    (memberNames f).Disjoint (freeNames g) := by
  cases f <;> cases g <;> simp [memberNames, freeNames, eqOps, ordOps]

/-- Names of different features are different. -/
theorem nodup_names {names : Feature → List String} (hn : ∀ f, (names f).Nodup)
    (hd : ∀ f g, f ≠ g → (names f).Disjoint (names g)) (fs : FeatureSet) :
    (fs.toList.flatMap names).Nodup :=
  List.nodup_flatMap.2 ⟨fun f _ => hn f, fs.ordered.imp fun hlt =>
    hd _ _ fun heq => Nat.lt_irrefl _ (heq ▸ hlt)⟩

theorem nodup_operators (s : StructSpec) : (operators s).Nodup := by
  refine List.Nodup.of_map (·.name) ?_
  rw [map_name_operators]
  refine nodup_names (fun f => ?_) (fun f g hne => ?_) s.features
  · cases f <;> decide
  · revert hne; cases f <;> cases g <;> simp [memberNames, eqOps, ordOps]

theorem nodup_freeFunctions (s : StructSpec) : ((freeFunctions s).map Addition.declared).Nodup := by
  refine List.Nodup.of_map (·.function.name) ?_
  rw [List.map_map]
  show ((freeFunctions s).map (·.function.name)).Nodup
  rw [map_name_freeFunctions]
  refine nodup_names (fun f => ?_) (fun f g hne => ?_) s.features
  · cases f <;> decide
  · revert hne; cases f <;> cases g <;> simp [freeNames]

/-- Constructors alone are explicit, and accessors alone take nothing and change nothing. -/
theorem mem_operators {s : StructSpec} {g : Function} (hg : g ∈ operators s) :
    g.isExplicit = false ∧ g.params ≠ [] :=
  forall_operators (P := fun g => g.isExplicit = false ∧ g.params ≠ [])
    (fun op => by simp [comparison, Function.named]) g hg

theorem mem_accessors {s : StructSpec} {g : Function} (hg : g ∈ accessors s) :
    g.isExplicit = false ∧ g.params = [] ∧ g.isConst = true := by
  obtain ⟨f, -, rfl⟩ := List.mem_map.1 hg; exact ⟨rfl, rfl, rfl⟩

theorem mem_freeFunctions {s : StructSpec} {a : Addition} (ha : a ∈ freeFunctions s) :
    a.function.isExplicit = false ∧ (a.function.isConst = true → a.function.params ≠ []) := by
  obtain ⟨f, -, ha⟩ := List.mem_flatMap.1 ha
  revert ha
  cases f <;> simp only [Filling.around, List.mem_cons, List.not_mem_nil, or_false, false_implies]
  case hash => rintro rfl; exact ⟨rfl, fun _ => by simp [hashFunction]⟩
  case json => rintro (rfl | rfl) <;> exact ⟨rfl, fun h => absurd h Bool.false_ne_true⟩
  case rapidcheck => rintro rfl; exact ⟨rfl, fun h => absurd h Bool.false_ne_true⟩
  case fmt => rintro (rfl | rfl) <;> exact ⟨rfl, fun h => absurd h Bool.false_ne_true⟩

theorem nodup_accessors (s : StructSpec) : (accessors s).Nodup ↔
    ((s.fields.filter (·.indirect)).map fun f => (f.name, f.type)).Nodup := by
  have hmap : accessors s = ((s.fields.filter (·.indirect)).map fun f => (f.name, f.type)).map
      fun x => { Function.named ("get_" ++ x.1) with
        scope := some (unqualified s.toHead), returns := some (x.2 ++ " const &"), isConst := true } := by
    rw [accessors, List.map_map]; rfl
  rw [hmap]
  refine List.nodup_map_iff fun x y hxy => ?_
  have hname : "get_" ++ x.1 = "get_" ++ y.1 := congrArg Function.name hxy
  have htype : x.2 ++ " const &" = y.2 ++ " const &" :=
    Option.some.inj (congrArg Function.returns hxy)
  exact Prod.ext ((String.append_right_inj _).1 hname) ((String.append_left_inj _).1 htype)

theorem nodup_memberFunctions (s : StructSpec) : (memberFunctions s).Nodup ↔ (accessors s).Nodup := by
  have hconstructors : ∀ g ∈ constructors s, g.isExplicit = true := fun g hg => by
    rw [constructors] at hg
    split at hg
    · cases hg
    · rw [List.mem_singleton.1 hg]; rfl
  have hnodup : (constructors s).Nodup := by
    rw [constructors]; split <;> simp
  rw [memberFunctions, List.nodup_append', List.nodup_append']
  refine ⟨fun h => h.2.1, fun h => ⟨⟨hnodup, nodup_operators s, fun g hc ho => ?_⟩, h, fun g hco ha => ?_⟩⟩
  · have := hconstructors g hc
    rw [(mem_operators ho).1] at this; cases this
  · have haccessor := mem_accessors ha
    rcases List.mem_append.1 hco with hc | ho
    · have := hconstructors g hc
      rw [haccessor.1] at this; cases this
    · exact (mem_operators ho).2 haccessor.2.1

/-- No function is declared twice, unless two fields with an accessor are alike. -/
theorem nodup_declarations (s : StructSpec) : (declarations s).Nodup ↔
    ((s.fields.filter (·.indirect)).map fun f => (f.name, f.type)).Nodup := by
  have hdisjoint : ∀ g ∈ memberFunctions s, ∀ a ∈ freeFunctions s, g ≠ a.function := fun g hg a ha heq => by
    obtain ⟨hexplicit, hparams⟩ := mem_freeFunctions ha
    rw [← heq] at hexplicit hparams
    rcases List.mem_append.1 hg with hg | hg
    · rcases List.mem_append.1 hg with hg | hg
      · rw [constructors] at hg
        split at hg
        · cases hg
        · rw [List.mem_singleton.1 hg] at hexplicit; cases hexplicit
      · have hmember := List.mem_map_of_mem (f := (·.name)) hg
        have hfree := List.mem_map_of_mem (f := (·.function.name)) ha
        rw [map_name_operators] at hmember
        rw [map_name_freeFunctions] at hfree
        obtain ⟨f, -, hmember⟩ := List.mem_flatMap.1 hmember
        obtain ⟨f', -, hfree⟩ := List.mem_flatMap.1 hfree
        exact disjoint_memberNames_freeNames f f' hmember (heq ▸ hfree)
    · obtain ⟨-, hnil, hconst⟩ := mem_accessors hg
      exact hparams hconst hnil
  rw [declarations_eq, List.nodup_append', List.nodup_map_iff fun a b h =>
    congrArg Mention.function h, nodup_memberFunctions, nodup_accessors]
  refine ⟨fun h => h.1, fun h => ⟨h, nodup_freeFunctions s, fun m hm hfree => ?_⟩⟩
  obtain ⟨g, hg, rfl⟩ := List.mem_map.1 hm
  obtain ⟨a, ha, heq⟩ := List.mem_map.1 hfree
  exact hdisjoint g hg a ha (congrArg Mention.function heq).symm

/-- Header and source define the functions that the header declares, each as often as it is declared
and in the same namespaces, but for the constructor of a struct that has no fields and is compared:
that one is defined without a declaration. -/
theorem definitions_correspond (s : StructSpec) :
    ((definitions s).map key).Perm
      ((surplus s).map (s.space.toList, ·) ++ (declarations s).map key) ∧
    (((definitions s).map key).Perm ((declarations s).map key) ↔
      ¬ (s.fields = [] ∧ IsCompared s)) ∧
    ((declarations s).Nodup ↔
      ((s.fields.filter (·.indirect)).map fun f => (f.name, f.type)).Nodup) ∧
    ∀ m ∈ declarations s,
      m.function.definition = m.function.signatureAs (qualify m.site.owner m.function.name) := by
  refine ⟨definitions_perm s, ⟨fun hperm hbare => ?_, fun h => ?_⟩, nodup_declarations s,
    fun m hm => definition_eq hm⟩
  · have hlen := (hperm.symm.trans (definitions_perm s)).length_eq
    rw [surplus, if_pos hbare] at hlen
    simp at hlen
  · have hperm := definitions_perm s
    rwa [surplus, if_neg h] at hperm

end TypeGen.Render.StructSpec
