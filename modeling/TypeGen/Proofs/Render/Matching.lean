import TypeGen.Proofs.Render.Definition
import TypeGen.Proofs.Render.Pairing
import TypeGen.Render.Variant

/-!
Declarations and definitions of variants. What the header declares is what header and source define,
function by function and namespace by namespace. A class declares a constructor for each alternative,
the operators of its features and, where every alternative has a key, the accessors; whatever a
generic class defines stands in its header, under its template.
-/

namespace TypeGen.Render.VariantSpec

open TypeGen.Code TypeGen.Spec TypeGen.Text

/-- The functions that a header declares. -/
def declarations (s : VariantSpec) : List Mention :=
  (mentionsOf Site.top (renderer.header s)).filter (!·.defines)

/-- The functions that header and source define outside of the type. -/
def definitions (s : VariantSpec) : List Definition :=
  (definitionsOf Site.top [] (renderer.header s) ++
    definitionsOf Site.top [] (renderer.source s)).filter (·.site.owner.isNone)

/-! ### Features -/

def filling (s : VariantSpec) : Filling where
  comparison := comparisonBody
  hash := hashBody
  reading := readBody s
  writing := writeBody s
  generator := generator s
  format := fmtBody s
  param := constRef s
  fmtParam := fmtParam s

theorem mute_indexSwitch (s : VariantSpec) (index : String) (leaves : Bool) {body : Arm → List Step}
    (hbody : ∀ a, Mute (body a)) : Mute [indexSwitch s index leaves body] := by
  refine mute_switch index (Mute.append (mute_map (fun x site => ?_) _) fun _ => rfl)
  exact hbody x.1 site

theorem mute_readBody (s : VariantSpec) : Mute (readBody s) := by
  refine Mute.append (mute_line _) (mute_ifChain (fun arm harm => ?_) (mute_line _))
  obtain ⟨a, -, rfl⟩ := List.mem_map.1 harm
  exact mute_line _

theorem mute_writeBody (s : VariantSpec) : Mute (writeBody s) := by
  have htag : Mute [assignKey typeKey (Quoted.literal s.name)] := mute_line _
  exact htag.append (mute_indexSwitch s _ _ fun _ _ => rfl)

theorem mute_fmtBody (s : VariantSpec) : Mute (fmtBody s) :=
  ((mute_line _).append (mute_indexSwitch s _ _ fun _ => mute_line _)).append (mute_line _)

theorem isMute_filling (s : VariantSpec) : (filling s).IsMute where
  comparison _ := mute_line _
  hash := mute_line _
  reading := mute_readBody s
  writing := mute_writeBody s
  format := mute_fmtBody s

theorem registry_adds (s : VariantSpec) : registry.Adds s ((filling s).members s.toHead)
    ((filling s).around s.toHead) := fun f => by
  have hmute := isMute_filling s
  cases f with
  | eq | ord => exact adds_comparison hmute rfl
  | hash => exact adds_hash hmute rfl rfl
  | json => exact adds_json hmute rfl rfl rfl
  | rapidcheck => exact adds_arbitrary rfl
  | fmt => exact adds_fmt hmute rfl rfl

/-! ### The type and its members -/

/-- The accessors of an alternative. -/
def accessors (s : VariantSpec) : List Addition :=
  if s.isKeyed then
    s.arms.flatMap fun a =>
      [⟨within s.toHead, isKey s a,
          [.line ("return std::holds_alternative<" ++ a.type ++ ">(this->raw_variant);")]⟩,
        ⟨within s.toHead, requireKey s a,
          [.line ("return std::get<" ++ a.type ++ ">(this->raw_variant);")]⟩]
  else []

def constructors (s : VariantSpec) : List Addition :=
  s.arms.map fun a => ⟨within s.toHead, constructor s a, []⟩

def operators (s : VariantSpec) : List Addition := additions s ((filling s).members s.toHead)

def freeFunctions (s : VariantSpec) : List Addition := additions s ((filling s).around s.toHead)

theorem mentions_keyDecls (s : VariantSpec) : mentionsOf (within s.toHead) (keyDecls s) =
    (accessors s).map Addition.declared := by
  rw [keyDecls, accessors]
  split
  · rw [mentionsOf, mentionsOf_flatMap, List.map_flatMap]; rfl
  · rfl

theorem definitions_keyDefs (s : VariantSpec) : definitionsOf (beside s.toHead) [] (keyDefs s) =
    (accessors s).map (Addition.defined s.toHead) := by
  rw [keyDefs, accessors]
  split
  · rw [List.map_flatMap]
    exact definitionsOf_flatMap (fun a => unheaded_cons (fun _ _ => rfl) _) _ _
  · rfl

theorem definitions_memberSteps (s : VariantSpec) :
    definitionsOf (beside s.toHead) [] (memberSteps s) =
      (constructors s ++ accessors s).map (Addition.defined s.toHead) := by
  have hconstructor : ∀ a, definitionsOf (beside s.toHead) []
      (memberDef s.toHead (constructor s a) []) =
        [Addition.defined s.toHead ⟨within s.toHead, constructor s a, []⟩] := fun a =>
    definitions_memberDef _ _ fun _ => rfl
  rw [memberSteps, definitionsOf, Step.definitions, definitionsOfItems_eq, List.flatMap_map]
  simp only [hconstructor]
  rw [← List.map_eq_flatMap, List.map_append, constructors, List.map_map]
  exact congrArg _ (definitions_keyDefs s)

/-- What the body of the type defines at once. -/
def inlineSteps (s : VariantSpec) : List Step :=
  traitSteps s ++ [.blank, visitStep s true, .blank, visitStep s false, .blank, hasStep s, .blank,
    getStep s true, .blank, getStep s false, .blank, indexStep]

theorem mute_visitBody (s : VariantSpec) (qualifier : String) : Mute
    ((match s.toHead.isGeneric, s.arms with
      | true, first :: rest => rest.map (sameReturn s qualifier first)
      | _, _ => []) ++
    [indexSwitch s "this->index()" false fun a =>
      [.line ("return v(this->template get<" ++ a.type ++ ">());")]]) := by
  refine Mute.append ?_ (mute_indexSwitch s _ _ fun _ => mute_line _)
  split
  · exact mute_map (fun _ _ => rfl) _
  · exact fun _ => rfl

theorem mentions_inline (s : VariantSpec) : ∀ m ∈ mentionsOf (within s.toHead) (inlineSteps s),
    m.site = within s.toHead ∧ m.defines = true ∧ m.function.isStatic = false := by
  have hvisit : ∀ isConst, ∃ f, f.isStatic = false ∧
      (visitStep s isConst).mentions (within s.toHead) = [⟨within s.toHead, f, true⟩] :=
    fun isConst => ⟨_, rfl, congrArg (_ :: ·) (mute_visitBody s _ _)⟩
  obtain ⟨f, hstatic, hf⟩ := hvisit true
  obtain ⟨g, hstatic', hg⟩ := hvisit false
  simp [inlineSteps, traitSteps, hasStep, getStep, indexStep, hf, hg, hstatic, hstatic', memberCheck,
    Function.named]

theorem mentions_type (s : VariantSpec) : mentionsOf (beside s.toHead) (renderer.type s) =
    (constructors s).map Addition.declared ++ mentionsOf (within s.toHead) (inlineSteps s) ++
      ((operators s ++ accessors s).map Addition.declared) := by
  have hconstructors : mentionsOf (within s.toHead) (s.arms.map fun a => .declare (constructor s a)) =
      (constructors s).map Addition.declared := by
    rw [mentionsOf_map, constructors, List.map_map, List.map_eq_flatMap]; rfl
  have hoperators : mentionsOf (within s.toHead) (registry.emitAll .memberDecls s) =
      (operators s).map Addition.declared := (registry_adds s).mentions_memberDecls
  have hends : ∀ t t' : String, Mute [.line t] ∧ Mute [.blank] ∧ Mute [.blank, .line t'] :=
    fun _ _ => ⟨mute_line _, fun _ => rfl, fun _ => rfl⟩
  obtain ⟨hdeleted, hblank, hraw⟩ := hends (s.name ++ "() = delete;") (rawType s ++ " raw_variant;")
  show mentionsOf (within s.toHead) _ ++ [] = _
  rw [inlineSteps]
  simp only [mentionsOf_append, hdeleted (within s.toHead), hblank (within s.toHead),
    hraw (within s.toHead), hconstructors, hoperators, mentions_keyDecls, List.append_nil,
    List.nil_append, List.map_append, List.append_assoc]

/-- What holds of operators and accessors, whatever their bodies, holds of all members that a type
declares behind its constructors. -/
theorem forall_methods {s : VariantSpec} {P : Addition → Prop}
    (hoperator : ∀ op body, P ⟨within s.toHead, Render.comparison s.toHead op, body⟩)
    (his : ∀ a body, P ⟨within s.toHead, isKey s a, body⟩)
    (hrequire : ∀ a body, P ⟨within s.toHead, requireKey s a, body⟩) :
    ∀ a ∈ operators s ++ accessors s, P a := by
  refine List.forall_mem_append.2 ⟨fun a ha => ?_, fun a ha => ?_⟩
  · obtain ⟨f, -, ha⟩ := List.mem_flatMap.1 ha
    exact Filling.forall_members _ _ hoperator f a ha
  · rw [accessors] at ha
    split at ha
    · obtain ⟨arm, -, ha⟩ := List.mem_flatMap.1 ha
      rcases List.mem_cons.1 ha with rfl | ha
      · exact his arm _
      · rw [List.mem_singleton.1 ha]; exact hrequire arm _
    · cases ha

theorem forall_declared {s : VariantSpec} {P : Addition → Prop}
    (hconstructor : ∀ a, P ⟨within s.toHead, constructor s a, []⟩)
    (hmethods : ∀ a ∈ operators s ++ accessors s, P a) :
    ∀ a ∈ constructors s ++ operators s ++ accessors s, P a := by
  rw [List.append_assoc]
  refine List.forall_mem_append.2 ⟨fun a ha => ?_, hmethods⟩
  obtain ⟨arm, -, rfl⟩ := List.mem_map.1 ha
  exact hconstructor arm

/-- Members are declared in the type. -/
theorem site_members (s : VariantSpec) : ∀ a ∈ constructors s ++ operators s ++ accessors s,
    a.site = within s.toHead :=
  forall_declared (fun _ => rfl) (forall_methods (fun _ _ => rfl) (fun _ _ => rfl) fun _ _ => rfl)

theorem declared_defines {as : List Addition} {m : Mention} (hm : m ∈ as.map Addition.declared) :
    m.defines = false := by
  obtain ⟨a, -, rfl⟩ := List.mem_map.1 hm; rfl

theorem declarations_type (s : VariantSpec) :
    (mentionsOf (beside s.toHead) (renderer.type s)).filter (!·.defines) =
      (constructors s ++ operators s ++ accessors s).map Addition.declared := by
  have hdeclared : ∀ as : List Addition, (as.map Addition.declared).filter (!·.defines) =
      as.map Addition.declared := fun as =>
    List.filter_eq_self.2 fun m hm => by rw [declared_defines hm]; rfl
  have hinline : (mentionsOf (within s.toHead) (inlineSteps s)).filter (!·.defines) = [] :=
    List.filter_eq_nil_iff.2 fun m hm => by simp [(mentions_inline s m hm).2.1]
  rw [mentions_type, List.filter_append, List.filter_append, hinline, hdeclared, hdeclared,
    List.append_nil, ← List.map_append, List.append_assoc]

theorem definitions_type (s : VariantSpec) :
    (definitionsOf (beside s.toHead) [] (renderer.type s)).filter (·.site.owner.isNone) = [] := by
  refine List.filter_eq_nil_iff.2 fun d hd hnone => ?_
  have hmention : d.mention ∈ (mentionsOf (beside s.toHead) (renderer.type s)).filter (·.defines) := by
    rw [← map_mention_definitionsOf _ []]; exact List.mem_map_of_mem hd
  obtain ⟨hm, hdefines⟩ := List.mem_filter.1 hmention
  rw [mentions_type, List.mem_append, List.mem_append] at hm
  rcases hm with (hm | hm) | hm
  · rw [declared_defines hm] at hdefines; cases hdefines
  · have hsite : d.site = within s.toHead := (mentions_inline s _ hm).1
    rw [hsite] at hnone; cases hnone
  · rw [declared_defines hm] at hdefines; cases hdefines

/-! ### Header and source -/

theorem definesOnly_keyDefs (s : VariantSpec) : DefinesOnly (keyDefs s) := by
  have hblank : DefinesOnly [.blank] := Mute.definesOnly fun _ => rfl
  rw [keyDefs]
  split
  · refine definesOnly_flatMap (fun a => ?_) _
    have his := definesOnly_memberDef s.toHead (isKey s a) (mute_line
      ("return std::holds_alternative<" ++ a.type ++ ">(this->raw_variant);"))
    have hrequire := definesOnly_memberDef s.toHead (requireKey s a) (mute_line
      ("return std::get<" ++ a.type ++ ">(this->raw_variant);"))
    exact (hblank.append his).append (hblank.append hrequire)
  · exact definesOnly_nil

theorem definesOnly_members (s : VariantSpec) : DefinesOnly (renderer.members s) := by
  have hconstructors : DefinesOnly [.join "\n" (s.arms.map fun a =>
      memberDef s.toHead (constructor s a) [])] :=
    definesOnly_join (fun a => definesOnly_memberDef _ _ fun _ => rfl) _ _
  exact hconstructors.append (definesOnly_keyDefs s)

theorem declarations_eq (s : VariantSpec) : declarations s =
    (constructors s ++ operators s ++ accessors s ++ freeFunctions s).map Addition.declared := by
  rw [declarations, Renderer.declarations_header (registry_adds s) (definesOnly_members s),
    List.map_append]
  exact congrArg (· ++ _) (declarations_type s)

/-- All that is defined outside of the type. -/
def defined (s : VariantSpec) : List Definition :=
  (constructors s ++ accessors s ++ operators s ++ freeFunctions s).map (Addition.defined s.toHead)

theorem definitionsOf_definitions (s : VariantSpec) :
    definitionsOf Site.top [] (renderer.definitions s) = defined s := by
  have hmembers : definitionsOf (beside (HasHead.head s)) [] (renderer.members s) =
      (constructors s ++ accessors s).map (Addition.defined s.toHead) := definitions_memberSteps s
  have hguard : (renderer.hasMembers s || renderer.registry.hasMemberDefs s) = true := rfl
  rw [Renderer.definitionsOf_definitions (registry_adds s), if_pos hguard, hmembers, defined,
    @List.map_append _ _ _ _ (freeFunctions s), @List.map_append _ _ _ _ (operators s)]
  rfl

theorem unheaded_type (s : VariantSpec) : Unheaded (renderer.type s) :=
  unheaded_cons (fun _ _ => rfl) _

theorem filter_defined (s : VariantSpec) : (defined s).filter (·.site.owner.isNone) = defined s :=
  List.filter_eq_self.2 fun d hd => by obtain ⟨a, -, rfl⟩ := List.mem_map.1 hd; rfl

theorem definitions_header (s : VariantSpec) :
    (definitionsOf Site.top [] (renderer.header s)).filter (·.site.owner.isNone) =
      if s.isGeneric then defined s else [] := by
  have htype : (definitionsOf (beside (HasHead.head s)) [] (renderer.type s)).filter
      (·.site.owner.isNone) = [] := definitions_type s
  rw [Renderer.definitionsOf_header (registry_adds s) (unheaded_type s), List.filter_append, htype,
    definitionsOf_definitions, List.nil_append, apply_ite (List.filter _), filter_defined]
  rfl

theorem definitions_eq (s : VariantSpec) : definitions s = defined s := by
  rw [definitions, Renderer.filter_definitionsOf_files (registry_adds s) (unheaded_type s)
    (definitions_type s), definitionsOf_definitions, filter_defined]

/-! ### The correspondence -/

theorem definitions_perm (s : VariantSpec) :
    ((definitions s).map fun d => key d.mention).Perm ((declarations s).map key) := by
  have hswap : (constructors s ++ accessors s ++ operators s ++ freeFunctions s).Perm
      (constructors s ++ operators s ++ accessors s ++ freeFunctions s) := by
    refine List.Perm.append ?_ (List.Perm.refl _)
    rw [List.append_assoc, List.append_assoc]
    exact List.Perm.append (List.Perm.refl _) List.perm_append_comm
  rw [definitions_eq, declarations_eq, defined, List.map_map, List.map_map]
  exact hswap.map _

theorem isQualified_all (s : VariantSpec) : ∀ a ∈ constructors s ++ operators s ++ accessors s ++
    freeFunctions s, IsQualified s.toHead a := by
  have hmethods : ∀ a ∈ operators s ++ accessors s, IsQualified s.toHead a :=
    forall_methods (fun _ _ => isQualified_member rfl rfl rfl)
      (fun _ _ => isQualified_member rfl rfl rfl) fun _ _ => isQualified_member rfl rfl rfl
  have hdeclared := forall_declared (fun _ => isQualified_member rfl rfl rfl) hmethods
  refine List.forall_mem_append.2 ⟨hdeclared, fun a ha => ?_⟩
  obtain ⟨f, -, ha⟩ := List.mem_flatMap.1 ha
  exact isQualified_around _ _ f a ha

/-- Header and source define the functions that the header declares, each as often as it is declared
and in the same namespaces, without specifiers and under its name as the class qualifies it. The class
declares its constructors, the operators of its features and, if every alternative has a key, its
accessors. What is generic is defined in the header alone, and its definitions repeat its template. -/
theorem definitions_match (s : VariantSpec) :
    ((definitions s).map fun d => key d.mention).Perm ((declarations s).map key) ∧
    (∀ m ∈ declarations s, m.function.definition =
      m.function.signatureAs (qualify m.site.owner m.function.name)) ∧
    (mentionsOf (beside s.toHead) (renderer.type s)).filter (!·.defines) =
      (s.arms.map (constructor s) ++ (operators s).map (·.function) ++
        if s.isKeyed then s.arms.flatMap fun a => [isKey s a, requireKey s a] else []).map
          (⟨within s.toHead, ·, false⟩) ∧
    (definitionsOf Site.top [] (renderer.header s)).filter (·.site.owner.isNone) =
      (if s.isGeneric then definitions s else []) ∧
    (s.isGeneric = true → renderer.source s = []) ∧
    ∀ d ∈ definitions s,
      d.heading ++ templateLines d.function.template false = templateLines s.params false ∧
      (d.function.scope ≠ none → d.heading = templateLines s.params false) := by
  have hqualified := isQualified_all s
  refine ⟨definitions_perm s, fun m hm => ?_, ?_, ?_, fun hgeneric => if_pos hgeneric,
    fun d hd => ?_⟩
  · rw [declarations_eq] at hm
    obtain ⟨a, ha, rfl⟩ := List.mem_map.1 hm
    exact (hqualified a ha).name
  · have haccessors : (accessors s).map (·.function) =
        if s.isKeyed then s.arms.flatMap fun a => [isKey s a, requireKey s a] else [] := by
      rw [accessors, apply_ite (List.map _), List.map_flatMap]; rfl
    have hconstructors : (constructors s).map (·.function) = s.arms.map (constructor s) := by
      rw [constructors, List.map_map]; rfl
    rw [declarations_type, ← haccessors, ← hconstructors, ← List.map_append, ← List.map_append,
      List.map_map]
    exact List.map_congr_left fun a ha => by rw [Addition.declared, site_members s a ha]; rfl
  · rw [definitions_header, definitions_eq]
  · rw [definitions_eq] at hd
    obtain ⟨a, ha, rfl⟩ := List.mem_map.1 hd
    have hmem : a ∈ constructors s ++ operators s ++ accessors s ++ freeFunctions s := by
      simp only [List.mem_append] at ha ⊢
      tauto
    exact ⟨(hqualified a hmem).template, (hqualified a hmem).member⟩

end TypeGen.Render.VariantSpec
