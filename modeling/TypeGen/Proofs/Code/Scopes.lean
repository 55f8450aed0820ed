import TypeGen.Proofs.Code.Brackets
import TypeGen.Proofs.Code.Comments
import TypeGen.Proofs.Code.Nesting
import TypeGen.Proofs.Code.Signatures
import TypeGen.Proofs.Code.Writing

/-!
Scopes of steps. Whatever steps are nested in each other and however their bodies end, the page comes
back to its level and the brackets of the scopes are closed in the order in which they have to be.
-/

namespace TypeGen.Code

open TypeGen.Spec TypeGen.Text

/-! ### Levels -/

def Step.IsSteady (s : Step) : Prop := s ≠ .indent ∧ s ≠ .dedent

def Act.IsSteady : Act → Prop
  | .indent => False
  | .dedent => False
  | _ => True

theorem everyOf_isSteady {s : Step} (h : s.IsSteady) : EveryOf Act.IsSteady s.bare.strokes :=
  everyOf_bare (fun a hi hd => by cases a <;> trivial)
    (fun hs => absurd hs h.1) fun hs => absurd hs h.2

/-- How many of the open scopes are indented. -/
def depth (around : List Scope) : Nat := around.countP (·.setting = .indented)

theorem depth_cons (s : Scope) (around : List Scope) :
    depth (s :: around) = depth around + s.setting.depth := by
  rw [depth, List.countP_cons, ← depth]
  cases s.setting <;> simp [Setting.depth]

theorem Act.IsSteady.level {a : Act} (h : a.IsSteady) {around around' : List Scope} {p : Page} {n : Nat}
    (hfollow : a.follow around = some around') (hp : p.level = n + depth around) :
    (a.perform p).level = n + depth around' := by
  cases a with
  | indent => cases h
  | dedent => cases h
  | text | newline | freshLine => cases hfollow; simpa [Act.perform] using hp
  | gap =>
    cases hfollow
    rw [Act.perform]
    split
    · exact hp
    · rw [level_write, hp]
  | opened s =>
    cases hfollow
    rw [Act.perform, level_enter, depth_cons]
    omega
  | closed s =>
    obtain rfl := Act.follow_closed hfollow
    rw [depth_cons] at hp
    rw [Act.perform, level_leave]
    omega

/-- The level of a page is the one it had, and one more for each indented scope that is open. -/
theorem level_replay : ∀ {acts : List Act} {around around' : List Scope} {p : Page} {n : Nat},
    (∀ a ∈ acts, a.IsSteady) → settle around acts = some around' → p.level = n + depth around →
      (replay acts p).level = n + depth around'
  | [], _, _, _, _, _, hs, hp => by cases hs; exact hp
  | a :: acts, _, _, p, _, h, hs, hp => by
    rw [settle, List.foldlM_cons] at hs
    obtain ⟨next, hnext, hs⟩ := Option.bind_eq_some_iff.1 hs
    exact level_replay (p := a.perform p) (fun a ha => h a (List.mem_cons_of_mem _ ha)) hs
      ((h a (List.mem_cons_self ..)).level hnext hp)

/-! ### Texts of their own -/

/-- What the caller says of a step, apart from what closes a block. -/
def Step.texts : Step → List String
  | .text s => [s]
  | .line s => [s]
  | .doc t => [t]
  | .block header _ _ => [header]
  | .inSpace name _ => name.toList
  | .template params _ => params
  | .struct name params _ _ => name :: params
  | .switch subject _ => [subject]
  | .case label _ _ => [label]
  | .ifElse condition _ _ => [condition]
  | .ifChain arms _ => arms.map (·.1)
  | .join separator _ => [separator]
  | .declare f => f.texts
  | .define f _ => f.texts
  | .includes list => list.toList.map (·.path)
  | _ => []

/-- The brackets of scopes. -/
def Brackets.ofScopes : Brackets := ⟨[('\x7b', '\x7d'), ('(', ')'), ('<', '>')], by decide⟩

/-- The caller's own texts have no brackets, apart from the one that closes a block. -/
def Step.IsPlain (s : Step) : Prop :=
  (∀ t ∈ s.texts, Brackets.ofScopes.Spares t) ∧
    ∀ header closing body, s = .block header closing body →
      ∃ rest, closing = "\x7d" ++ rest ∧ Brackets.ofScopes.Spares rest

/-! ### Brackets -/

namespace Brackets

/-- A scope in braces. -/
theorem matches_braces {setting : Setting} {header rest : String} {closing : String}
    (hh : ofScopes.IsBalanced header) (hr : ofScopes.IsBalanced rest) (hc : closing = "\x7d" ++ rest) :
    ofScopes.Matches ⟨setting, header ++ " \x7b", closing⟩ := by
  refine matches_of (show ofScopes.reader.read [] _ = some ['\x7d'] from ?_) ?_
  · rw [String.toList_append, ofScopes.reader.read_append_of hh]; rfl
  · have hclose : ofScopes.reader.read ['\x7d'] "\x7d".toList = some [] := by decide
    rw [hc, String.toList_append, ofScopes.reader.read_append_of hclose]; exact hr

/-! ### Balanced texts of steps -/

theorem isBalanced_literal {s t u : String} (hs : ofScopes.IsBalanced s) (ht : ofScopes.Spares t)
    (hu : ofScopes.IsBalanced u) : ofScopes.IsBalanced (s ++ t ++ u) :=
  (hs.append ht.isBalanced).append hu

/-- A name with arguments in parentheses. -/
theorem IsBalanced.call {s t : String} (hs : ofScopes.IsBalanced s) (ht : ofScopes.IsBalanced t) :
    ofScopes.IsBalanced (s ++ "(" ++ t ++ ")") := by
  have hparens : ofScopes.IsBalanced ("(" ++ t ++ ")") :=
    ht.between (by decide : ofScopes.reader.read [] "(".toList = some [')']) (by decide)
  have := hs.append hparens
  rwa [← String.append_assoc, ← String.append_assoc] at this

theorem matches_space {name : String} (h : ofScopes.Spares name) {setting : Setting} :
    ofScopes.Matches ⟨setting, "namespace " ++ name ++ " \x7b\n",
      "\x7d // namespace " ++ name ++ "\n"⟩ := by
  have hopen : ofScopes.IsBalanced ("namespace " ++ name) :=
    IsBalanced.append (by decide) h.isBalanced
  have hclose : ofScopes.reader.read ['\x7d'] "\x7d // namespace ".toList = some [] := by decide
  refine matches_of (show ofScopes.reader.read [] _ = some ['\x7d'] from ?_) ?_
  · rw [String.toList_append, ofScopes.reader.read_append_of hopen]; decide
  · rw [String.toList_append, String.toList_append, List.append_assoc,
      ofScopes.reader.read_append_of hclose, ofScopes.reader.read_append_of h.isBalanced]
    decide

theorem combines : Combines ofScopes.IsBalanced where
  empty := isBalanced_empty
  behind word hword t ht := by
    refine IsBalanced.append ?_ ht
    revert word
    decide
  const hs := hs.append (by decide)
  between sep hsep s t hs ht := by
    refine (hs.append ?_).append ht
    revert sep
    decide
  attached _ hs ht := hs.append ht
  call := IsBalanced.call
  template ht := ht.between (by decide : _ = some ['>']) (by decide)

theorem spares_commentLines {t : String} (h : ofScopes.Spares t) : ∀ line ∈ commentLines t,
    ofScopes.IsBalanced line := by
  intro line hline
  rw [commentLines, List.mem_append, List.mem_append] at hline
  rcases hline with (hline | hline) | hline
  · rw [List.mem_singleton.1 hline]; decide
  · obtain ⟨cs, hcs, rfl⟩ := List.mem_map.1 hline
    obtain ⟨hpart, -⟩ := infix_of_comment hcs
    have hspares : ofScopes.Spares (String.ofList (trimEnd cs)) := fun c hc => by
      rw [String.toList_ofList] at hc
      rcases mem_openComment _ (hpart.subset hc) with hc | rfl
      · exact h c hc
      · decide
    rw [commentLine]
    split
    · decide
    next heq => exact IsBalanced.append (by decide) hspares.isBalanced
  · rw [List.mem_singleton.1 hline]; decide

theorem isBalanced_directive {i : Include} (h : ofScopes.Spares i.path) :
    ofScopes.IsBalanced i.directive := by
  rw [Include.directive]
  split
  · exact h.isBalanced.between (by decide : _ = some ['>']) (by decide)
  · exact isBalanced_literal (by decide) h (by decide)

/-! ### Steps by themselves -/

theorem keeps_lines {ts : List String} (h : ∀ t ∈ ts, ofScopes.IsBalanced t) :
    EveryOf ofScopes.Keeps (strokesOfLines ts) :=
  everyOf_lines.2 fun t ht => ⟨h t ht, trivial⟩

theorem keeps_template {params : List String} (h : ∀ t ∈ params, ofScopes.IsBalanced t) (force : Bool) :
    EveryOf ofScopes.Keeps (strokesOfLines (templateLines params force)) :=
  keeps_lines (combines.templateLines h)

theorem keeps_includes {is : List Include} (h : ∀ i ∈ is, ofScopes.Spares i.path) :
    EveryOf ofScopes.Keeps (strokesOfLines (is.map Include.directive)) :=
  keeps_lines (List.forall_mem_map.2 fun i hi => isBalanced_directive (h i hi))

theorem keeps_scope {setting : Setting} {opening closing : String}
    (h : ofScopes.Matches ⟨setting, opening, closing⟩) :
    EveryOf ofScopes.Keeps [.scope setting opening closing []] :=
  ⟨⟨h, h, trivial⟩, trivial⟩

theorem keeps_block {header closing rest : String} (hheader : ofScopes.IsBalanced header)
    (hrest : ofScopes.IsBalanced rest) (hclosing : closing = "\x7d" ++ rest) :
    EveryOf ofScopes.Keeps (strokesOfBlock header closing []) := by
  have hline : ofScopes.IsBalanced "\n" := by decide
  have hends : closing ++ "\n" = "\x7d" ++ (rest ++ "\n") := by rw [hclosing, String.append_assoc]
  exact keeps_scope (matches_braces hheader (hrest.append hline) hends)

theorem keeps_braces : EveryOf ofScopes.Keeps (strokesOfBraces []) :=
  ⟨trivial, keeps_scope (matches_of (by decide : _ = some ['\x7d']) (by decide))⟩

theorem keeps_case {label : String} (h : ofScopes.IsBalanced label) (leaves : Bool) :
    EveryOf ofScopes.Keeps (strokesOfCase label leaves []) :=
  everyOf_case_bare (keeps_block h isBalanced_empty rfl) (by decide : ofScopes.IsBalanced _) trivial

theorem keeps_ifChain {arms : List (String × List Step)} (h : ∀ arm ∈ arms, ofScopes.Spares arm.1)
    (otherwise : List Step) :
    EveryOf ofScopes.Keeps (Step.ifChain arms otherwise).bare.strokes := by
  refine everyOf_ifChain_bare keeps_braces (by decide : ofScopes.IsBalanced _) trivial
    fun arm harm keyword hkeyword => ?_
  have hcondition := (h arm harm).isBalanced
  rcases List.mem_cons.1 hkeyword with rfl | hkeyword
  · exact hcondition.between
      (by decide : ofScopes.reader.read [] ("if" ++ " (").toList = some [')']) (by decide)
  · rw [List.mem_singleton.1 hkeyword]
    exact hcondition.between
      (by decide : ofScopes.reader.read [] (" else if" ++ " (").toList = some [')']) (by decide)

/-- The acts of a plain step keep brackets matched. -/
theorem everyOf_keeps {s : Step} (h : s.IsPlain) : EveryOf ofScopes.Keeps s.bare.strokes := by
  obtain ⟨hspares, hclosing⟩ := h
  have htexts : ∀ t ∈ s.texts, ofScopes.IsBalanced t := fun t ht => (hspares t ht).isBalanced
  cases s with
  | text t => exact ⟨htexts t (by simp [Step.texts]), trivial⟩
  | line t => exact ⟨htexts t (by simp [Step.texts]), trivial, trivial⟩
  | newline | indent | dedent => exact ⟨trivial, trivial⟩
  | blank => exact ⟨trivial, trivial, trivial⟩
  | doc t => exact ⟨trivial, keeps_lines (spares_commentLines (hspares t (by simp [Step.texts])))⟩
  | semicolon | spaced => exact keeps_scope (matches_of (by decide : _ = some []) (by decide))
  | parens => exact keeps_scope (matches_of (by decide : _ = some [')']) (by decide))
  | angles => exact keeps_scope (matches_of (by decide : _ = some ['>']) (by decide))
  | braces => exact keeps_braces
  | block header closing body =>
    obtain ⟨rest, hrest, hspared⟩ := hclosing header closing body rfl
    exact keeps_block (htexts header (by simp [Step.texts])) hspared.isBalanced hrest
  | inSpace name =>
    cases name with
    | none => trivial
    | some name => exact keeps_scope (matches_space (hspares name (by simp [Step.texts])))
  | template params force => exact keeps_template htexts force
  | includes list => exact keeps_includes (List.forall_mem_map.1 hspares)
  | struct name params specialization =>
    obtain ⟨hname, hparams⟩ := List.forall_mem_cons.1 htexts
    exact everyOf_append.2 ⟨keeps_template hparams specialization,
      keeps_block (IsBalanced.append (by decide) hname) (by decide : ofScopes.IsBalanced ";") rfl⟩
  | define f =>
    obtain ⟨-, -, -, hparams, -⟩ := forall_mem_texts.1 htexts
    exact everyOf_append.2 ⟨keeps_template hparams false,
      keeps_block (combines.defined htexts) isBalanced_empty rfl⟩
  | declare f =>
    obtain ⟨-, -, -, hparams, -⟩ := forall_mem_texts.1 htexts
    have hends : EveryOf ofScopes.Keeps [.scope .inline "" ";\n" []] :=
      keeps_scope (matches_of (by decide : _ = some []) (by decide))
    exact everyOf_append.2 ⟨keeps_template hparams false,
      everyOf_scope.2 ⟨hends, combines.declaration htexts, trivial⟩⟩
  | switch subject =>
    have hsubject := htexts subject (by simp [Step.texts])
    exact keeps_block (hsubject.between (by decide : _ = some [')']) (by decide)) isBalanced_empty rfl
  | case label =>
    have hlabel := hspares label (by simp [Step.texts])
    exact keeps_case (isBalanced_literal (by decide) hlabel (by decide)) _
  | default => exact keeps_case (by decide) _
  | ifElse condition body otherwise =>
    rw [strokes_ifElse]
    exact keeps_ifChain (by simpa [Step.texts] using hspares) otherwise
  | ifChain arms otherwise => exact keeps_ifChain (List.forall_mem_map.1 hspares) otherwise
  | join separator => exact everyOf_join_bare (htexts separator (by simp [Step.texts])) _
  | fail | unwind => exact ⟨trivial, trivial⟩

end Brackets

/-! ### Runs -/

/-- Steps leave the page at the level that it had, however they end, unless one of them moves the
level by itself. What they do is a trace that closes each scope it opens, the innermost first; and if
the caller's texts have no brackets, those of what has been added to the page match. -/
theorem Step.run_scoped (s : Step) (p : Page) :
    s.run p = (replay (traceAll s.strokes).1 p, (traceAll s.strokes).2) ∧
    settle [] (traceAll s.strokes).1 = some [] ∧
    (s.All Step.IsSteady → (s.run p).1.level = p.level) ∧
    (s.All Step.IsPlain → ∃ added, (s.run p).1.text = p.text ++ added ∧
      Brackets.ofScopes.IsBalanced added) := by
  have hrun : s.run p = (replay (traceAll s.strokes).1 p, (traceAll s.strokes).2) :=
    runAll_eq_replay s.strokes p
  have hsettle := settle_traceAll s.strokes []
  refine ⟨hrun, hsettle, fun hsteady => ?_, fun hplain => ?_⟩
  · have hevery := (hsteady.every fun _ => everyOf_isSteady).trace
    rw [hrun]
    exact level_replay hevery hsettle rfl
  · have hevery := (hplain.every fun _ => Brackets.everyOf_keeps).trace
    have htracks := Brackets.tracks_replay hevery hsettle (Brackets.tracks_refl _ p)
    rw [hrun]
    exact htracks.added

/-- A body that panics within three scopes. -/
def interrupted : Step :=
  .inSpace (some "geo") [.block "struct A" "\x7d;"
    [.line "int a;", .text "int b", .parens [.text "x", .unwind "stop"], .line "int c;"]]

theorem interrupted_scoped : (interrupted.run (Page.blank Indent.default)).2 = .unwound "stop" ∧
    (interrupted.run (Page.blank Indent.default)).1.level = 0 ∧
    ∃ added, (interrupted.run (Page.blank Indent.default)).1.text = "" ++ added ∧
      Brackets.ofScopes.IsBalanced added := by
  obtain ⟨-, -, hlevel, htext⟩ := interrupted.run_scoped (Page.blank Indent.default)
  refine ⟨rfl, hlevel ?_, htext ?_⟩
  · simp [interrupted, Step.All, AllOf, Step.IsSteady]
  · simp [interrupted, Step.All, AllOf, Step.IsPlain, Step.texts]
    exact ⟨by decide, ⟨by decide, ";", rfl, by decide⟩, by decide, by decide, by decide, by decide⟩

end TypeGen.Code
