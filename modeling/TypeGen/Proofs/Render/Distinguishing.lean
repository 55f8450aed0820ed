import TypeGen.Proofs.Render.Recovering
import TypeGen.Proofs.Spec.Relisting

/-!
Distinguishing. The keys of a spec tell its parts apart in JSON, and nothing makes them differ: whether
a text is accepted does not depend on them. Where two are the same, a branch of the code that reads is
never taken, or the code that writes puts one field over another; where all differ, neither happens.
-/

namespace TypeGen.Spec

open TypeGen.Toml

/-! ### Texts with other keys -/

theorem forall_unplaced {P : String → Prop} {ts : List Located} :
    (∀ t ∈ ts.map unplaced, P t.text) ↔ ∀ t ∈ ts, P t.text := List.forall_mem_map

/-- Everything but the keys for JSON, wherever it stands. -/
def RawStruct.keyless (raw : RawStruct) : RawStruct := { raw with
  features := raw.features.map unplaced
  includes := raw.includes.map unplaced
  sourceIncludes := raw.sourceIncludes.map unplaced
  postIncludes := raw.postIncludes.map unplaced
  fields := raw.fields.map fun f => { f with jsonKey := none } }

@[inherit_doc RawStruct.keyless]
def RawEnum.keyless (raw : RawEnum) : RawEnum := { raw with
  features := raw.features.map unplaced
  values := raw.values.map fun v => { v with jsonKey := none } }

@[inherit_doc RawStruct.keyless]
def RawVariant.keyless (raw : RawVariant) : RawVariant := { raw with
  features := raw.features.map unplaced
  includes := raw.includes.map unplaced
  sourceIncludes := raw.sourceIncludes.map unplaced
  arms := raw.arms.map fun a => { a with jsonKey := none } }

theorem RawStruct.isSound_keyless {raw : RawStruct} : raw.keyless.IsSound ↔ raw.IsSound := by
  have hasks : raw.keyless.asksGenerators ↔ raw.asksGenerators := by
    simp [asksGenerators, keyless, unplaced]
  have hfields : (∀ f ∈ raw.keyless.fields, f.indirect = false) ↔
      ∀ f ∈ raw.fields, f.indirect = false := List.forall_mem_map
  constructor
  · rintro ⟨hf, hi, hs, hp, hg⟩
    exact ⟨forall_unplaced.1 hf, forall_unplaced.1 hi, forall_unplaced.1 hs, forall_unplaced.1 hp,
      fun h => hfields.1 (hg (hasks.2 h))⟩
  · rintro ⟨hf, hi, hs, hp, hg⟩
    exact ⟨forall_unplaced.2 hf, forall_unplaced.2 hi, forall_unplaced.2 hs, forall_unplaced.2 hp,
      fun h => hfields.2 (hg (hasks.1 h))⟩

theorem RawEnum.isSound_keyless {raw : RawEnum} : raw.keyless.IsSound ↔ raw.IsSound := by
  have hempty : raw.keyless.values ≠ [] ↔ raw.values ≠ [] := not_congr List.map_eq_nil_iff
  constructor
  · rintro ⟨hne, hf⟩
    exact ⟨hempty.1 hne, forall_unplaced.1 hf⟩
  · rintro ⟨hne, hf⟩
    exact ⟨hempty.2 hne, forall_unplaced.2 hf⟩

theorem RawVariant.isSound_keyless {raw : RawVariant} : raw.keyless.IsSound ↔ raw.IsSound := by
  have hempty : raw.keyless.arms ≠ [] ↔ raw.arms ≠ [] := not_congr List.map_eq_nil_iff
  have hkeys : raw.keyless.keysAgree ↔ raw.keysAgree :=
    or_congr List.forall_mem_map List.forall_mem_map
  constructor
  · rintro ⟨hf, hi, hs, hne, hk⟩
    exact ⟨forall_unplaced.1 hf, forall_unplaced.1 hi, forall_unplaced.1 hs, hempty.1 hne, hkeys.1 hk⟩
  · rintro ⟨hf, hi, hs, hne, hk⟩
    exact ⟨forall_unplaced.2 hf, forall_unplaced.2 hi, forall_unplaced.2 hs, hempty.2 hne, hkeys.2 hk⟩

namespace Raw

@[inherit_doc RawStruct.keyless]
def keyless : Raw → Raw
  | .struct raw => .struct raw.keyless
  | .enum raw => .enum raw.keyless
  | .variant raw => .variant raw.keyless

/-- The keys for JSON. What has none goes by its key, and what has no key by its type or name. -/
def jsonKeys : Raw → List String
  | .struct raw => raw.fields.map fun f => f.jsonKey.getD f.name
  | .enum raw => raw.values.map fun v => v.jsonKey.getD v.name
  | .variant raw => raw.arms.map fun a => a.jsonKey.getD (a.key.getD a.type)

/-- No rule is about the keys for JSON. -/
theorem isSound_keyless {raw : Raw} : raw.keyless.IsSound ↔ raw.IsSound := by
  cases raw with
  | struct => exact RawStruct.isSound_keyless
  | enum => exact RawEnum.isSound_keyless
  | variant => exact RawVariant.isSound_keyless

/-- What is accepted is decoded to a sound spec, and is that spec. -/
theorem parse_eq_ok {kind : Kind} {text file : String} {s : Spec} :
    parse kind text file = .ok s ↔
      ∃ raw, decode? kind text = some raw ∧ raw.IsSound ∧ raw.spec = s := by
  rw [parse_eq]
  cases decode? kind text with
  | none => simp
  | some raw => simp [check_eq, firstOr_eq_ok, isSound_iff file]

end Raw

/-- Two texts that say the same but for the keys for JSON. -/
structure RekeyedText (kind : Kind) (text text' : String) (raw raw' : Raw) : Prop where
  decoded : Raw.decode? kind text = some raw
  decoded' : Raw.decode? kind text' = some raw'
  keyless : raw'.keyless = raw.keyless

/-- A text with other keys is accepted if and only if the text is. -/
theorem RekeyedText.accepted {kind : Kind} {text text' : String} {raw raw' : Raw}
    (h : RekeyedText kind text text' raw raw') (file : String) :
    (∃ s, parse kind text' file = .ok s) ↔ ∃ s, parse kind text file = .ok s := by
  have hsound : raw'.IsSound ↔ raw.IsSound := by
    rw [← Raw.isSound_keyless, h.keyless, Raw.isSound_keyless]
  simp [Raw.parse_eq_ok, h.decoded, h.decoded', hsound]

end TypeGen.Spec

namespace TypeGen.Render

open TypeGen.Code TypeGen.Spec TypeGen.Text

namespace Serial

/-! ### Branches -/

/-- The number of the first branch whose condition holds. -/
def takenOf? (texts : List (String × String)) : List (String × List Step) → Option Nat
  | [] => none
  | (condition, _) :: rest => do
    if ← holds? texts condition then some 0 else (takenOf? texts rest).map (· + 1)

/-- The branches of the chain that code comes to. -/
def branches : List Step → List (String × List Step)
  | .line _ :: rest => branches rest
  | .ifChain arms _ :: _ => arms
  | _ => []

/-- The branch that reading takes, told by its number. -/
def taken? (j : Tree) : List (String × String) → List Step → Option Nat
  | texts, .line s :: rest => do
    let (name, key) ← local? s
    let text ← j.text? key
    taken? j ((name, text) :: texts) rest
  | texts, .ifChain arms _ :: _ => takenOf? texts arms
  | _, _ => none

/-- What is done on reading is what the branch that is taken says. -/
theorem branch?_of_takenOf? {texts : List (String × String)} {otherwise : List Step} :
    ∀ {arms : List (String × List Step)} {i : Nat}, takenOf? texts arms = some i →
      branch? texts otherwise arms = arms[i]?.map (·.2)
  | (condition, body) :: rest, i, h => by
    rw [takenOf?] at h
    rw [branch?]
    cases hholds : holds? texts condition with
    | none => rw [hholds] at h; cases h
    | some holds =>
      rw [hholds] at h
      cases holds with
      | true => cases h; rfl
      | false =>
        obtain ⟨k, hk, rfl⟩ := Option.map_eq_some_iff.1 (show Option.map _ _ = some i from h)
        exact branch?_of_takenOf? hk

theorem takenOf?_compare {α : Type} (name text : String) (tag : α → String) (body : α → List Step)
    (xs : List α) :
    takenOf? [(name, text)] (xs.map fun y => (name ++ " == " ++ Quoted.literal (tag y), body y)) =
      (xs.map tag).findIdx? (text = ·) := by
  induction xs with
  | nil => rfl
  | cons x xs ih =>
    rw [List.map_cons, takenOf?, holds?_compare, List.map_cons, List.findIdx?_cons, ← ih]
    rfl

theorem exists_text? (key : Option String) (text : String) : ∃ j, Tree.text? key j = some text := by
  cases key with
  | none => exact ⟨.leaf (.text text), rfl⟩
  | some key => exact ⟨.object [(key, .text text)], by simp [Tree.text?, Tree.at?]⟩

/-- Each place of a list is the first for what stands there exactly if nothing is listed twice. -/
theorem forall_findIdx?_iff_nodup {tags : List String} :
    (∀ i < tags.length, ∃ text, tags.findIdx? (text = ·) = some i) ↔ tags.Nodup := by
  simp only [List.findIdx?_eq_some_iff_getElem, decide_eq_true_eq, List.Nodup,
    List.pairwise_iff_getElem]
  constructor
  · intro h k i hk hi hki hsame
    obtain ⟨text, _, htext, hfirst⟩ := h i hi
    exact hfirst k hki (htext.trans hsame.symm)
  · -- the text to look for is the one that stands there
    intro h i hi
    exact ⟨tags[i], hi, rfl, fun k hki hsame => h k i (hki.trans hi) hi hki hsame.symm⟩

/-- Where a text is read and compared with one key after another, each branch is taken for some text
exactly if no two keys are the same. -/
theorem forall_taken_iff {α : Type} {line name : String} {key : Option String}
    (hline : local? line = some (name, key)) (tag : α → String) (body : α → List Step) (xs : List α)
    (otherwise : List Step) {steps : List Step} (hsteps : steps = [.line line, .ifChain
      (xs.map fun y => (name ++ " == " ++ Quoted.literal (tag y), body y)) otherwise]) :
    (∀ i < (branches steps).length, ∃ j, taken? j [] steps = some i) ↔ (xs.map tag).Nodup := by
  have htaken : ∀ j, taken? j [] steps =
      (j.text? key).bind fun text => (xs.map tag).findIdx? (text = ·) := fun j => by
    simp only [hsteps, taken?, hline, takenOf?_compare, Option.bind_eq_bind, Option.bind_some]
  have hsome : ∀ i, (∃ j, taken? j [] steps = some i) ↔
      ∃ text, (xs.map tag).findIdx? (text = ·) = some i := fun i => by
    simp only [htaken, Option.bind_eq_some_iff]
    constructor
    · rintro ⟨j, text, -, h⟩
      exact ⟨text, h⟩
    · rintro ⟨text, h⟩
      obtain ⟨j, hj⟩ := exists_text? key text
      exact ⟨j, text, hj, h⟩
  have hlength : (branches steps).length = (xs.map tag).length := by simp [hsteps, branches]
  rw [← forall_findIdx?_iff_nodup, hlength]
  simp only [hsome]

/-! ### Specs -/

/-- The code of a spec writes every value of the type, and there is code that reads them. -/
structure IsSerializable (s : Spec) : Prop where
  reader : ∃ d, serializer? "from_json" s = some d
  writes : ∀ v ∈ values s, ∃ j, written? s v.1 = some j

/-- Every branch of the code that reads is taken for some JSON, and nothing that the code writes of a
value but the tag, which is written first, is written over. -/
structure IsUnambiguous (s : Spec) : Prop where
  reading : ∀ d, serializer? "from_json" s = some d →
    ∀ i < (branches d.body).length, ∃ j, taken? j [] d.body = some i
  writing : ∀ v ∈ values s, ∀ members, written? s v.1 = some (.object members) →
    (members.dropLast.map (·.1)).Nodup

/-- Where no field is written over, the branches of the code that reads decide. -/
theorem isUnambiguous_iff_reading {s : Spec} {d : Definition}
    (hd : serializer? "from_json" s = some d)
    (hwriting : ∀ v ∈ values s, ∀ members, written? s v.1 = some (.object members) →
      (members.dropLast.map (·.1)).Nodup) :
    IsUnambiguous s ↔ ∀ i < (branches d.body).length, ∃ j, taken? j [] d.body = some i := by
  constructor
  · intro h
    exact h.reading d hd
  · intro h
    refine ⟨fun d' hd' => ?_, hwriting⟩
    cases hd.symm.trans hd'
    exact h

end Serial

open Serial

section

variable {S : Type} [HasHead S] {r : Renderer S} {s : S} {added : Feature → List Addition}
  {x : Filling}

/-- The code that reads is what the kind of the spec fills in. -/
theorem Renderer.IsFilled.exists_reader (hr : r.IsFilled s added x) (spec : Spec)
    (hheader : headerSteps spec = r.header s) (hsource : sourceSteps spec = r.source s)
    (hjson : .json ∈ (HasHead.head s).features.toList) :
    ∃ d, serializer? "from_json" spec = some d ∧ d.body = x.reading := by
  have hfilter := hr.filter_definitions hjson "from_json" (by decide)
  rw [serializer?, hheader, hsource, hfilter]
  exact ⟨_, rfl, rfl⟩

end

namespace StructSpec

variable {s : StructSpec} (hjson : .json ∈ s.features.toList)
include hjson

theorem written?_eq (label? : String → Option String) : written? (.struct s) label? =
    some (.object ((members s).reverse ++ [(typeKey, .text s.name)])) :=
  ((isFilled s).written?_eq rfl rfl hjson label?).trans (write_writeBody s label?)

theorem isSerializable : IsSerializable (.struct s) where
  reader := (isFilled s).exists_reader _ rfl rfl hjson |>.imp fun _ h => h.1
  writes _ _ := ⟨_, written?_eq hjson _⟩

/-- Reading a struct takes no branch, and its fields are written one after another. -/
theorem isUnambiguous_iff : IsUnambiguous (.struct s) ↔ (s.fields.map (·.jsonKey)).Nodup := by
  have hkeys : ((((members s).reverse ++ [(typeKey, Datum.text s.name)]).dropLast).map (·.1)).Nodup ↔
      (s.fields.map (·.jsonKey)).Nodup := by
    rw [List.dropLast_concat, List.map_reverse, List.nodup_reverse, members, List.map_map]
    rfl
  constructor
  · intro h
    exact hkeys.1 (h.writing _ (List.mem_singleton_self _) _ (written?_eq hjson _))
  · intro h
    obtain ⟨d, hd, hbody⟩ := (isFilled s).exists_reader (.struct s) rfl rfl hjson
    refine ⟨fun d' hd' i hi => ?_, fun v _ ms hms => ?_⟩
    · cases hd.symm.trans hd'
      rw [hbody] at hi
      cases hi
    · cases (written?_eq hjson _).symm.trans hms
      exact hkeys.2 h

end StructSpec

namespace EnumSpec

variable {s : EnumSpec} (hjson : .json ∈ s.features.toList)
include hjson

/-- An enumerator is written as a text, be it that of another one with its name. -/
theorem written?_eq {v : Enumerator} (hv : v ∈ s.values) : ∃ w ∈ s.values,
    written? (.enum s) (label? s v) = some (.leaf (.text w.jsonKey)) := by
  obtain ⟨w, hw, -, hdone⟩ := exists_doneFor_case (enumerator s)
    (fun w => [.line ("j = " ++ Quoted.literal w.jsonKey ++ ";")])
    [.default false [throwUnknownValue s]] hv
  refine ⟨w, hw, ((isFilled s).written?_eq rfl rfl hjson _).trans ?_⟩
  show write (label? s v) (writeBody s) = _
  rw [write, writeBody, List.foldlM_cons, writeStep_switch (if_pos rfl), hdone, List.foldlM_cons,
    writeSimple, writeLine_replace]
  rfl

theorem isSerializable : IsSerializable (.enum s) where
  reader := (isFilled s).exists_reader _ rfl rfl hjson |>.imp fun _ h => h.1
  writes v hv := by
    obtain ⟨e, he, rfl⟩ := List.mem_map.1 hv
    obtain ⟨w, -, hw⟩ := written?_eq hjson he
    exact ⟨_, hw⟩

/-- Reading an enumerator takes the branch of its key. -/
theorem isUnambiguous_iff : IsUnambiguous (.enum s) ↔ (s.values.map (·.jsonKey)).Nodup := by
  obtain ⟨d, hd, hbody⟩ := (isFilled s).exists_reader (.enum s) rfl rfl hjson
  have htaken := forall_taken_iff local?_text Enumerator.jsonKey
    (fun v => [.line ("return " ++ enumerator s v ++ ";")]) s.values
    [.line ("throw std::runtime_error(\"Unknown " ++ s.name ++ " value \" + as_str);")] hbody
  refine (isUnambiguous_iff_reading hd fun v hv ms hms => ?_).trans htaken
  obtain ⟨e, he, rfl⟩ := List.mem_map.1 hv
  obtain ⟨w, -, hw⟩ := written?_eq hjson he
  cases hw.symm.trans hms

end EnumSpec

namespace VariantSpec

variable {s : VariantSpec} (hjson : .json ∈ s.features.toList)
include hjson

theorem written?_eq {a : Arm} {i : Nat} (ha : (a, i) ∈ s.arms.zipIdx) :
    written? (.variant s) (label? i) = some (.object (members s a)) :=
  ((isFilled s).written?_eq rfl rfl hjson _).trans (write_writeBody ha)

theorem isSerializable : IsSerializable (.variant s) where
  reader := (isFilled s).exists_reader _ rfl rfl hjson |>.imp fun _ h => h.1
  writes v hv := by
    obtain ⟨⟨a, i⟩, ha, rfl⟩ := List.mem_map.1 hv
    exact ⟨_, written?_eq hjson ha⟩

/-- Reading an alternative takes the branch of its key. What is written of it are the key and the value,
under two names. -/
theorem isUnambiguous_iff : IsUnambiguous (.variant s) ↔ (s.arms.map (·.jsonKey)).Nodup := by
  obtain ⟨d, hd, hbody⟩ := (isFilled s).exists_reader (.variant s) rfl rfl hjson
  have htaken := forall_taken_iff local?_key Arm.jsonKey
    (fun a => [.line ("return " ++ qualified s.toHead ++ "\x7bj.at(\"value\").template get<" ++
      a.type ++ ">()\x7d;")]) s.arms
    [.line ("throw std::runtime_error(\"Unknown type key \" + key + \" for type " ++ s.name ++
      "\");")] hbody
  refine (isUnambiguous_iff_reading hd fun v hv ms hms => ?_).trans htaken
  obtain ⟨⟨a, i⟩, ha, rfl⟩ := List.mem_map.1 hv
  cases (written?_eq hjson ha).symm.trans hms
  simp [members]

end VariantSpec

/-! ### Accepted texts -/

namespace Serial

theorem isSerializable {s : Spec} (hjson : .json ∈ s.head.features.toList) : IsSerializable s := by
  cases s with
  | struct => exact StructSpec.isSerializable hjson
  | enum => exact EnumSpec.isSerializable hjson
  | variant => exact VariantSpec.isSerializable hjson

theorem isUnambiguous_iff {s : Spec} (hjson : .json ∈ s.head.features.toList) :
    IsUnambiguous s ↔ (jsonKeys s).Nodup := by
  cases s with
  | struct => exact StructSpec.isUnambiguous_iff hjson
  | enum => exact EnumSpec.isUnambiguous_iff hjson
  | variant => exact VariantSpec.isUnambiguous_iff hjson

theorem jsonKeys_spec (raw : Raw) : jsonKeys raw.spec = raw.jsonKeys := by
  cases raw <;> exact List.map_map

/-- A spec that breaks no rule is accepted with keys that are the same, and its code is ambiguous. -/
theorem exists_ambiguous {kind : Kind} {text file : String} {raw : Raw}
    (hraw : Raw.decode? kind text = some raw) (hsound : raw.IsSound)
    (hjson : .json ∈ raw.spec.head.features.toList) (hkeys : ¬raw.jsonKeys.Nodup) :
    ∃ s, parse kind text file = .ok s ∧ ¬(jsonKeys s).Nodup ∧ ¬IsUnambiguous s := by
  rw [← jsonKeys_spec] at hkeys
  exact ⟨raw.spec, Raw.parse_eq_ok.2 ⟨raw, hraw, hsound, rfl⟩, hkeys,
    fun h => hkeys ((isUnambiguous_iff hjson).1 h)⟩

end Serial

end TypeGen.Render
