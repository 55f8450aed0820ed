import TypeGen.Proofs.Render.Deciding
import TypeGen.Proofs.Render.Matching
import TypeGen.Proofs.Render.Serializing
import TypeGen.Proofs.Spec.Features

/-!
Dispatching. The code of a variant tells its alternatives apart by their indices and, where it reads
JSON, by their keys. Whatever it decides in this way can be read as a table; and all of its tables
agree with the alternatives of the `std::variant` that it holds, index by index.
-/

namespace TypeGen.Render

open TypeGen.Code TypeGen.Spec TypeGen.Text Serial

/-! ### Tables -/

/-- What a switch or a chain of conditions does: the labels of its branches in their order, the types
by which the branches take the value, and the keys that they write. -/
structure Table where
  labels : List String
  types : List String
  keys : List String
  deriving DecidableEq, Repr

/-- What is told of one branch: the type by which it takes the value and the key that it writes, if it
writes one. -/
abbrev Teller := List Step → Option (String × Option String)

namespace Table

def throws : List Step → Bool
  | [.line s] => (cutFront? "throw " s).isSome
  | _ => false

/-- Whether the last of some steps returns. -/
def returns (body : List Step) : Bool :=
  match body.getLast? with
  | some (.line s) => (cutFront? "return " s).isSome
  | _ => false

/-- The cases of a switch, none of which goes on in the next. What follows them has to be a default that
throws, and nothing else. -/
def cases? : List Step → Option (List (String × List Step))
  | [.default _ body] => if throws body then some [] else none
  | .case label leaves body :: rest =>
    if leaves || returns body then (cases? rest).map ((label, body) :: ·) else none
  | _ => none

/-- The branches of a chain in which a text of a given name is compared with literals. -/
def branches? (name : String) : List (String × List Step) → Option (List (String × List Step))
  | [] => some []
  | (condition, body) :: rest => do
    let label ← (cutFront? (name ++ " == ") condition).bind literal?
    let branches ← branches? name rest
    some ((label, body) :: branches)

def ofBranches? (told? : Teller) : List (String × List Step) → Option Table
  | [] => some ⟨[], [], []⟩
  | (label, body) :: rest => do
    let (type, key) ← told? body
    let table ← ofBranches? told? rest
    some ⟨label :: table.labels, type :: table.types, key.toList ++ table.keys⟩

/-- The table of a switch over an index. -/
def ofSwitch? (index : String) (told? : Teller) : Step → Option Table
  | .switch subject cases => if subject = index then (cases? cases).bind (ofBranches? told?) else none
  | _ => none

/-- The table of a chain that compares a text and throws if it is none of the labels. -/
def ofChain? (name : String) (told? : Teller) : Step → Option Table
  | .ifChain arms otherwise =>
    if throws otherwise then (branches? name arms).bind (ofBranches? told?) else none
  | _ => none

section Lemmas

variable {α : Type} {told? : Teller} (label : α → String) {type : α → String}
  {key : α → Option String} {body : α → List Step}

theorem ofBranches?_map (htold : ∀ x, told? (body x) = some (type x, key x)) (xs : List α) :
    ofBranches? told? (xs.map fun x => (label x, body x)) =
      some ⟨xs.map label, xs.map type, xs.filterMap key⟩ := by
  induction xs with
  | nil => rfl
  | cons x xs ih =>
    rw [List.map_cons, ofBranches?, htold, ih]
    cases hkey : key x <;> simp [hkey]

theorem cases?_map {leaves : Bool} {otherwise : List Step} (hthrows : throws otherwise = true)
    (hends : leaves = true ∨ ∀ x, returns (body x) = true) (xs : List α) :
    cases? ((xs.map fun x => .case (label x) leaves (body x)) ++ [.default false otherwise]) =
      some (xs.map fun x => (label x, body x)) := by
  induction xs with
  | nil => exact if_pos hthrows
  | cons x xs ih =>
    have hclosed : (leaves || returns (body x)) = true := by
      rcases hends with hleaves | hreturns
      · rw [hleaves, Bool.true_or]
      · rw [hreturns, Bool.or_true]
    rw [List.map_cons, List.cons_append, cases?, if_pos hclosed, ih]
    rfl

theorem branches?_map (name : String) (xs : List α) :
    branches? name (xs.map fun x => (name ++ " == " ++ Quoted.literal (label x), body x)) =
      some (xs.map fun x => (label x, body x)) := by
  induction xs with
  | nil => rfl
  | cons x xs ih =>
    rw [List.map_cons, branches?, cutFront?_append, Option.bind_some, literal?_literal, ih]
    rfl

theorem ofChain?_compare (name : String) {otherwise : List Step} (hthrows : throws otherwise = true)
    (htold : ∀ x, told? (body x) = some (type x, key x)) (xs : List α) :
    ofChain? name told? (.ifChain
      (xs.map fun x => (name ++ " == " ++ Quoted.literal (label x), body x)) otherwise) =
      some ⟨xs.map label, xs.map type, xs.filterMap key⟩ := by
  rw [ofChain?, if_pos hthrows, branches?_map, Option.bind_some, ofBranches?_map _ htold]

end Lemmas

end Table

namespace VariantSpec

/-! ### What the code of a variant tells -/

/-- The alternatives of a data member of the type `std::variant`, as they are written. -/
def alternatives? (line : String) : Option String := do
  let type ← cutEnding? "> raw_variant;" line
  cutFront? "std::variant<" type

def line? : Step → Option String
  | .line s => some s
  | _ => none

/-- The lines among the members of a type. -/
def memberLines : List Step → List String
  | [.struct _ _ _ body] => body.filterMap line?
  | _ => []

/-- A branch that hands the value to a visitor. -/
def visited? : Teller
  | [.line s] => do
    let rest ← cutFront? "return v(this->template get<" s
    let type ← cutEnding? ">());" rest
    some (type, none)
  | _ => none

/-- A branch that writes the key and the value to JSON. -/
def tagged? : Teller
  | [.line first, .line second] =>
    match assignment? first, assignment? second with
    | some ("type", .text key), some ("value", .value expression) => do
      let rest ← cutFront? "x.template get<" expression
      let type ← cutEnding? ">()" rest
      some (type, some key)
    | _, _ => none
  | _ => none

/-- A branch that writes the name of the type, the key and the value to a stream. -/
def shown? (name : String) : Teller
  | [.line s] => do
    let rest ← cutFront? "oss << " s
    let (opening, rest) ← Quoted.read? rest
    let key ← (cutFront? ("<" ++ name ++ " ") opening).bind (cutEnding? "=")
    let rest ← cutFront? " << x.template get<" rest
    let type ← cutEnding? ">() << \">\";" rest
    some (type, some key)
  | _ => none

/-- A branch that makes an object of the value in JSON. -/
def built? (qualified : String) : Teller
  | [.line s] => do
    let rest ← cutFront? ("return " ++ qualified ++ "\x7bj.at(\"value\").template get<") s
    let type ← cutEnding? ">()\x7d;" rest
    some (type, none)
  | _ => none

/-- The table of a decision, read as it is meant in the function around it. -/
def table? (s : VariantSpec) (d : Decision) : Option Table := do
  match (← d.owner).name with
  | "visit" => Table.ofSwitch? "this->index()" visited? d.step
  | "from_json" => Table.ofChain? "key" (built? (qualified s.toHead)) d.step
  | "to_json" => Table.ofSwitch? "x.index()" tagged? d.step
  | "format_as" => Table.ofSwitch? "x.index()" (shown? s.name) d.step
  | _ => none

/-- The numbers of the alternatives. -/
def indices (s : VariantSpec) : List String := (List.range s.arms.length).map toString

variable (s : VariantSpec)

/-! ### The data member -/

theorem alternatives?_eq_some {line types : String} :
    alternatives? line = some types ↔ line = "std::variant<" ++ types ++ "> raw_variant;" := by
  simp only [alternatives?, Option.bind_eq_bind, Option.bind_eq_some_iff, cutEnding?_eq_some,
    cutFront?_eq_some]
  exact ⟨fun ⟨_, hline, htype⟩ => htype ▸ hline, fun h => ⟨_, h, rfl⟩⟩

theorem alternatives?_deleted (name : String) : alternatives? (name ++ "() = delete;") = none := by
  refine Option.eq_none_iff_forall_ne_some.2 fun types h => ?_
  have hends := congrArg (·.toList.reverse) (alternatives?_eq_some.1 h)
  simp at hends

theorem alternatives?_static (rest : String) :
    alternatives? ("static constexpr bool " ++ rest) = none := by
  refine Option.eq_none_iff_forall_ne_some.2 fun types h => ?_
  have hstarts := congrArg (·.toList) (alternatives?_eq_some.1 h)
  simp at hstarts

theorem alternatives?_rawType :
    alternatives? (rawType s ++ " raw_variant;") = some (joinWith ", " (armTypes s)) := by
  have hend : "> raw_variant;" = ">" ++ " raw_variant;" := rfl
  rw [alternatives?_eq_some, rawType, hend, ← String.append_assoc]

theorem lines_memberDecls : (registry.emitAll .memberDecls s).filterMap line? = [] := by
  rw [Registry.emitAll, List.filterMap_flatMap]
  refine List.flatMap_eq_nil_iff.2 fun emit hemit => ?_
  obtain ⟨e, he, hslot⟩ := List.mem_filterMap.1 hemit
  obtain ⟨f, -, hf⟩ := List.mem_filterMap.1 he
  cases f <;> cases hf <;> cases hslot <;> rfl

theorem lines_keyDecls : (keyDecls s).filterMap line? = [] := by
  rw [keyDecls]
  split
  · show (s.arms.flatMap _).filterMap line? = []
    rw [List.filterMap_flatMap]
    exact List.flatMap_eq_nil_iff.2 fun _ _ => rfl
  · rfl

/-- No other line of the type is that of a data member. -/
theorem memberLines_type : (memberLines (renderer.type s)).filterMap alternatives? =
    [joinWith ", " (armTypes s)] := by
  have hconstructors : (s.arms.map fun a => Step.declare (constructor s a)).filterMap line? = [] := by
    rw [List.filterMap_map]
    exact List.filterMap_eq_nil_iff.2 fun _ _ => rfl
  have hends : ∀ t t' : String, [.line t].filterMap line? = [t] ∧ [.blank].filterMap line? = [] ∧
      [.blank, .line t'].filterMap line? = [t'] := fun _ _ => ⟨rfl, rfl, rfl⟩
  obtain ⟨hdeleted, hblank, hraw⟩ := hends (s.name ++ "() = delete;") (rawType s ++ " raw_variant;")
  have htrait : (traitSteps s).filterMap line? = ["static constexpr bool " ++ (membershipTrait s ++
      (" = " ++ (joinWith " || " ((armTypes s).map fun t =>
        "std::is_same_v<" ++ (typeVariable s ++ (", " ++ (t ++ ">")))) ++ ";")))] := by
    simp only [traitSteps, String.append_assoc]
    rfl
  have hmembers : [.blank, visitStep s true, .blank, visitStep s false, .blank, hasStep s, .blank,
      getStep s true, .blank, getStep s false, .blank, indexStep].filterMap line? = [] := rfl
  show (List.filterMap line? _).filterMap alternatives? = _
  simp only [List.filterMap_append, hdeleted, hconstructors, hblank, htrait, hmembers,
    lines_memberDecls, lines_keyDecls, hraw, List.append_nil, List.filterMap_cons, List.filterMap_nil,
    alternatives?_deleted, alternatives?_static, alternatives?_rawType, List.nil_append]

/-! ### Tables of the decisions -/

theorem throws_unknownIndex (index : String) :
    Table.throws [.line (throwUnknownIndex index s.name)] = true := by
  unfold Table.throws throwUnknownIndex cutFront?
  simp

theorem ofSwitch?_indexSwitch (index : String) (leaves : Bool) {body : Arm → List Step}
    {told? : Teller} {key : Arm → Option String}
    (hends : leaves = true ∨ ∀ a, Table.returns (body a) = true)
    (htold : ∀ a, told? (body a) = some (a.type, key a)) :
    Table.ofSwitch? index told? (indexSwitch s index leaves body) =
      some ⟨indices s, armTypes s, s.arms.filterMap key⟩ := by
  have hnumberedEnds : leaves = true ∨ ∀ x : Arm × Nat, Table.returns (body x.1) = true :=
    hends.imp_right fun h x => h x.1
  have hnumberedTold : ∀ x : Arm × Nat, told? (body x.1) = some (x.1.type, key x.1) :=
    fun x => htold x.1
  have hcases := Table.cases?_map (fun x => toString x.2) (throws_unknownIndex s index) hnumberedEnds
    s.arms.zipIdx
  have htable := Table.ofBranches?_map (fun x => toString x.2) hnumberedTold s.arms.zipIdx
  have harms : s.arms.zipIdx.map Prod.fst = s.arms := List.zipIdx_map_fst ..
  have hnumbers : s.arms.zipIdx.map Prod.snd = List.range s.arms.length := by
    rw [List.zipIdx_map_snd, List.range_eq_range']
  have hlabels : s.arms.zipIdx.map (fun x => toString x.2) = indices s := by
    rw [indices, ← hnumbers, List.map_map]; rfl
  have htypes : s.arms.zipIdx.map (fun x => x.1.type) = armTypes s := by
    conv_rhs => rw [armTypes, ← harms, List.map_map]
    rfl
  have hkeys : s.arms.zipIdx.filterMap (fun x => key x.1) = s.arms.filterMap key := by
    conv_rhs => rw [← harms, List.filterMap_map]
    rfl
  rw [hlabels, htypes, hkeys] at htable
  rw [indexSwitch, Table.ofSwitch?, if_pos rfl]
  -- the cases of the switch match on pairs, those of the lemma project from them
  exact (congrArg (Option.bind · _) hcases).trans htable

theorem visited?_return (a : Arm) :
    visited? [.line ("return v(this->template get<" ++ a.type ++ ">());")] = some (a.type, none) := by
  simp only [visited?, String.append_assoc, cutFront?_append, cutEnding?_append, Option.bind_eq_bind,
    Option.bind_some]

theorem tagged?_assign (a : Arm) :
    tagged? [assignKey "type" (Quoted.literal a.jsonKey),
      assignKey "value" ("x.template get<" ++ a.type ++ ">()")] = some (a.type, some a.jsonKey) := by
  have hvalue : datum ("x.template get<" ++ a.type ++ ">()") =
      .value ("x.template get<" ++ a.type ++ ">()") := datum_eq_value (by simp)
  simp only [tagged?, assignKey, assignment?_assign, datum_literal, hvalue]
  simp only [String.append_assoc, cutFront?_append, cutEnding?_append, Option.bind_eq_bind,
    Option.bind_some]

theorem shown?_stream (a : Arm) :
    shown? s.name [.line ("oss << " ++ Quoted.literal ("<" ++ s.name ++ " " ++ a.fmtKey ++ "=") ++
      " << x.template get<" ++ a.type ++ ">() << \">\";")] = some (a.type, some a.fmtKey) := by
  simp only [shown?, String.append_assoc, cutFront?_append, cutFront?_append_append,
    Quoted.read?_literal, cutEnding?_append, Option.bind_eq_bind, Option.bind_some]

theorem built?_return (qualified : String) (a : Arm) :
    built? qualified [.line ("return " ++ qualified ++ "\x7bj.at(\"value\").template get<" ++
      a.type ++ ">()\x7d;")] = some (a.type, none) := by
  simp only [built?, String.append_assoc, cutFront?_append, cutFront?_append_append,
    cutEnding?_append, Option.bind_eq_bind, Option.bind_some]

/-! ### Where the decisions are -/

theorem decisions_indexSwitch {owner : Option Function} (index : String) (leaves : Bool)
    {body : Arm → List Step} (hbody : ∀ a, Straight (body a)) :
    decisionsOf owner [indexSwitch s index leaves body] =
      [⟨owner, indexSwitch s index leaves body⟩] := by
  refine decisions_switch _ (Straight.append (straight_map (fun x owner => ?_) _) fun _ => rfl)
  exact hbody x.1 owner

/-- Where a decision is made, and its table. -/
def row (d : Decision) : Option (String × Bool) × Option Table :=
  (d.owner.map fun f => (f.name, f.isConst), table? s d)

theorem decisions_visitBody {owner : Option Function} (qualifier : String) : decisionsOf owner
    ((match s.toHead.isGeneric, s.arms with
      | true, first :: rest => rest.map (sameReturn s qualifier first)
      | _, _ => []) ++
    [indexSwitch s "this->index()" false fun a =>
      [.line ("return v(this->template get<" ++ a.type ++ ">());")]]) =
    [⟨owner, indexSwitch s "this->index()" false fun a =>
      [.line ("return v(this->template get<" ++ a.type ++ ">());")]⟩] := by
  rw [Straight.decisionsOf_append]
  · exact decisions_indexSwitch s _ _ fun _ => straight_line _
  · split
    · exact straight_map (fun _ _ => rfl) _
    · exact straight_nil

theorem rows_visit (isConst : Bool) : ((visitStep s isConst).decisions none).map (row s) =
    [(some ("visit", isConst), some ⟨indices s, armTypes s, []⟩)] := by
  have hreturns : ∀ a : Arm, Table.returns
      [.line ("return v(this->template get<" ++ a.type ++ ">());")] = true := fun a => by
    unfold Table.returns cutFront?
    simp
  have htable := ofSwitch?_indexSwitch s "this->index()" false (.inr hreturns) visited?_return
  rw [List.filterMap_eq_nil_iff.2 fun _ _ => rfl] at htable
  refine (congrArg (List.map (row s)) (decisions_visitBody s _)).trans ?_
  exact congrArg (fun table => [(some ("visit", isConst), table)]) htable

theorem rows_readBody : (decisionsOf (some (fromJson s.toHead)) (readBody s)).map (row s) =
    [(some ("from_json", false), some ⟨s.arms.map (·.jsonKey), armTypes s, []⟩)] := by
  have hthrows : Table.throws [.line ("throw std::runtime_error(\"Unknown type key \" + key + \" for " ++
      "type " ++ s.name ++ "\");")] = true := by
    unfold Table.throws cutFront?
    simp
  have htable := Table.ofChain?_compare Arm.jsonKey "key" hthrows
    (built?_return (qualified s.toHead)) s.arms
  rw [List.filterMap_eq_nil_iff.2 fun _ _ => rfl] at htable
  show (decisionsOf _ ([.line "std::string key = j.at(\"type\").template get<std::string>();"] ++
    [.ifChain _ _])).map (row s) = _
  rw [(straight_line _).decisionsOf_append, decisions_ifChain]
  · exact congrArg (fun table => [(some ("from_json", false), table)]) htable
  · intro arm harm
    obtain ⟨a, -, rfl⟩ := List.mem_map.1 harm
    exact straight_line _
  · exact straight_line _

theorem rows_writeBody (param : String) :
    (decisionsOf (some (toJson s.toHead param)) (writeBody s)).map (row s) =
      [(some ("to_json", false), some ⟨indices s, armTypes s, s.arms.map (·.jsonKey)⟩)] := by
  have htable := ofSwitch?_indexSwitch s "x.index()" true (.inl rfl) tagged?_assign
  rw [List.filterMap_eq_map'] at htable
  have htag : Straight [assignKey typeKey (Quoted.literal s.name)] := straight_line _
  show (decisionsOf _ ([assignKey typeKey (Quoted.literal s.name)] ++ [_])).map (row s) = _
  rw [htag.decisionsOf_append, decisions_indexSwitch s _ _ fun _ _ => rfl]
  exact congrArg (fun table => [(some ("to_json", false), table)]) htable

theorem rows_fmtBody (param : String) :
    (decisionsOf (some (formatFunction s.toHead param)) (fmtBody s)).map (row s) =
      [(some ("format_as", false), some ⟨indices s, armTypes s, s.arms.map (·.fmtKey)⟩)] := by
  have htable := ofSwitch?_indexSwitch s "x.index()" true (.inl rfl) (shown?_stream s)
  rw [List.filterMap_eq_map'] at htable
  show (decisionsOf _ ([.line "std::ostringstream oss;"] ++ ([_] ++
    [.line "return oss.str();"]))).map (row s) = _
  rw [(straight_line _).decisionsOf_append, decisionsOf_append, straight_line, List.append_nil,
    decisions_indexSwitch s _ _ fun _ => straight_line _]
  exact congrArg (fun table => [(some ("format_as", false), table)]) htable

/-! ### All decisions -/

/-- The decisions in header and source. -/
def decisions : List Decision :=
  decisionsOf none (headerSteps (.variant s) ++ sourceSteps (.variant s))

theorem straight_keyDecls : Straight (keyDecls s) := by
  rw [keyDecls]
  split
  · have hblank : Straight [.blank] := fun _ => rfl
    exact hblank.append (straight_flatMap (fun _ _ => rfl) _)
  · exact straight_nil

theorem straight_memberSteps : Straight (memberSteps s) := by
  have hconstructors := straight_join
    (fun a => straight_memberDef s.toHead (constructor s a) straight_nil) "\n" s.arms
  have hkeys : Straight (keyDefs s) := by
    rw [keyDefs]
    split
    · exact straight_flatMap (fun a _ => rfl) _
    · exact straight_nil
  exact hconstructors.append hkeys

/-- Features decide nothing but in the definitions that stand behind those of the members. -/
theorem straight_features (slot : Slot) (h : slot ≠ .defs) : Straight (registry.emitAll slot s) := by
  refine straight_emitAll fun f => ?_
  cases slot with
  | defs => exact absurd rfl h
  | memberDecls =>
    cases f with
    | eq | ord => exact straight_comparisonDecls _ _
    | hash | json | rapidcheck | fmt => exact straight_nil
  | decls =>
    cases f with
    | eq | ord => exact straight_nil
    | hash | json | rapidcheck => exact straight_specialization _ _ _ _
    | fmt => exact straight_fmtDecls _ _
  | memberDefs =>
    cases f with
    | eq | ord => exact straight_comparisonDefs _ _ fun _ => straight_line _
    | hash | json | rapidcheck | fmt => exact straight_nil

/-- What the decisions of a feature are, if it is asked for. -/
def rowsOf : Feature → List (Option (String × Bool) × Option Table)
  | .json => [(some ("from_json", false), some ⟨s.arms.map (·.jsonKey), armTypes s, []⟩),
      (some ("to_json", false), some ⟨indices s, armTypes s, s.arms.map (·.jsonKey)⟩)]
  | .fmt => [(some ("format_as", false), some ⟨indices s, armTypes s, s.arms.map (·.fmtKey)⟩)]
  | _ => []

theorem rows_feature (f : Feature) :
    (decisionsOf none ((registry.emitterOf f).contribution .defs s)).map (row s) = rowsOf s f := by
  cases f with
  | eq | ord => rfl
  | hash => exact congrArg (List.map (row s)) (straight_hashDefs _ _ (straight_line _) none)
  | rapidcheck => exact congrArg (List.map (row s)) (straight_arbitraryDefs _ _ none)
  | json =>
    refine (congrArg (List.map (row s)) (decisions_jsonDefs _ _ _ _)).trans ?_
    rw [List.map_append]
    exact congrArg₂ (· ++ ·) (rows_readBody s) (rows_writeBody s _)
  | fmt => exact (congrArg (List.map (row s)) (decisions_fmtDefs _ _ _)).trans (rows_fmtBody s _)

/-- Of the features it is those for JSON and for formatting that decide. -/
theorem rows_features : (decisionsOf none (registry.emitAll .defs s)).map (row s) =
    (if s.features.contains .json then rowsOf s .json else []) ++
      (if s.features.contains .fmt then rowsOf s .fmt else []) := by
  have hfilter : ∀ fs : List Feature, (fs.filter s.features.contains).flatMap (rowsOf s) =
      fs.flatMap fun f => if s.features.contains f then rowsOf s f else [] := fun fs => by
    induction fs with
    | nil => rfl
    | cons f fs ih =>
      rw [List.filter_cons, List.flatMap_cons, ← ih]
      split <;> rfl
  rw [decisions_emitAll, List.map_flatMap]
  simp only [rows_feature]
  show s.features.toList.flatMap (rowsOf s) = _
  rw [s.features.toList_eq_filter, hfilter]
  simp [Feature.all, rowsOf]

theorem rows_type : (decisionsOf none (renderer.type s)).map (row s) =
    [(some ("visit", true), some ⟨indices s, armTypes s, []⟩),
      (some ("visit", false), some ⟨indices s, armTypes s, []⟩)] := by
  have hconstructors : Straight (s.arms.map fun a => .declare (constructor s a)) :=
    straight_map (fun _ _ => rfl) _
  have htrait : Straight (traitSteps s) := fun _ => rfl
  have hinline : decisionsOf none [.blank, visitStep s true, .blank, visitStep s false, .blank,
      hasStep s, .blank, getStep s true, .blank, getStep s false, .blank, indexStep] =
        (visitStep s true).decisions none ++ (visitStep s false).decisions none := by
    simp [hasStep, getStep, indexStep, memberCheck]
  have hfeatures := straight_features s .memberDecls (by decide)
  have hends : ∀ t t' : String, Straight [.line t] ∧ Straight [.blank] ∧ Straight [.blank, .line t'] :=
    fun _ _ => ⟨straight_line _, fun _ => rfl, fun _ => rfl⟩
  obtain ⟨hdeleted, hblank, hraw⟩ := hends (s.name ++ "() = delete;") (rawType s ++ " raw_variant;")
  show (decisionsOf none _ ++ []).map (row s) = _
  simp only [decisionsOf_append, hdeleted none, hconstructors none, hblank none, htrait none, hinline,
    hfeatures none, straight_keyDecls s none, hraw none, List.append_nil, List.nil_append,
    List.map_append, rows_visit]
  rfl

/-- The code of a variant decides by its alternatives and by nothing else. Every switch over the index
has the numbers of the alternatives as its cases, in their order, and a default that throws; each case
takes the value as the alternative of its number and writes its key. Reading from JSON tries the keys in
the same order, and throws if it finds none of them. -/
theorem decisions_match :
    (memberLines (renderer.type s)).filterMap alternatives? = [joinWith ", " (armTypes s)] ∧
    (decisions s).map (row s) =
      [(some ("visit", true), some ⟨indices s, armTypes s, []⟩),
        (some ("visit", false), some ⟨indices s, armTypes s, []⟩)] ++
      (if s.features.contains .json then
        [(some ("from_json", false), some ⟨s.arms.map (·.jsonKey), armTypes s, []⟩),
          (some ("to_json", false), some ⟨indices s, armTypes s, s.arms.map (·.jsonKey)⟩)]
      else []) ++
      (if s.features.contains .fmt then
        [(some ("format_as", false), some ⟨indices s, armTypes s, s.arms.map (·.fmtKey)⟩)]
      else []) := by
  have hguard : (renderer.hasMembers s || renderer.registry.hasMemberDefs s) = true := rfl
  have hcode : decisions s = decisionsOf none (renderer.type s) ++
      decisionsOf none (registry.emitAll .defs s) := by
    have hdecls := straight_features s .decls (by decide) none
    have hmembers := straight_memberSteps s none
    have hmemberDefs := straight_features s .memberDefs (by decide) none
    show decisionsOf none (renderer.header s ++ renderer.source s) = _
    rw [decisions_code, decisions_definitions, if_pos hguard]
    show _ ++ decisionsOf none (registry.emitAll .decls s) ++ (decisionsOf none (memberSteps s) ++
      decisionsOf none (registry.emitAll .memberDefs s) ++ _) = _
    rw [hdecls, hmembers, hmemberDefs, List.append_nil, List.nil_append, List.nil_append]
    rfl
  refine ⟨memberLines_type s, ?_⟩
  rw [hcode, List.map_append, rows_type, rows_features, List.append_assoc]
  rfl

end VariantSpec

end TypeGen.Render
