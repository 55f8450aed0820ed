import Mathlib.Data.List.Forall2
import TypeGen.Proofs.Generate.Recording
import TypeGen.Proofs.Generate.Sample

/-!
Include guards. A guard is made of a path character by character, and all that is neither a letter nor
a digit comes to the same. So paths that differ elsewhere have different guards, and their headers can
be included together; of headers with one guard only the first counts.
-/

namespace TypeGen.Text

/-! ### Characters of guards -/

/-- The same letter or digit, be the letters large or small, or two characters that are neither. -/
def Alike (c c' : Char) : Prop :=
  c.isAlphanum = c'.isAlphanum ∧ (c.isAlphanum = true → c.toUpper = c'.toUpper)

instance (c c' : Char) : Decidable (Alike c c') := inferInstanceAs (Decidable (_ ∧ _))

/-- What guards make of a character. -/
def guardChar (c : Char) : Char := (if isWordChar c then c else '_').toUpper

theorem toList_guardIdentifier (s : String) : (guardIdentifier s).toList = s.toList.map guardChar := by
  rw [guardIdentifier, foldIdentifier, String.toList_ofList, String.toList_ofList, List.map_map]
  rfl

theorem guardChar_of_isAlphanum {c : Char} (h : c.isAlphanum = true) : guardChar c = c.toUpper := by
  simp [guardChar, isWordChar, h]

theorem guardChar_of_not_isAlphanum {c : Char} (h : c.isAlphanum = false) : guardChar c = '_' := by
  have hself : '_'.toUpper = '_' := by decide
  rw [guardChar]
  split
  next hword =>
    obtain rfl : c = '_' := by simpa [isWordChar, h] using hword
    exact hself
  next => exact hself

/-- What holds of the letters and digits among the first characters holds of all, since there are no
others. -/
theorem forall_isAlphanum {P : Char → Prop}
    (h : ∀ n < 128, (Char.ofNat n).isAlphanum = true → P (Char.ofNat n)) {c : Char}
    (hc : c.isAlphanum = true) : P c := by
  have hlt : c.toNat < 128 := by
    delta Char.isAlphanum Char.isAlpha Char.isUpper Char.isLower Char.isDigit at hc
    simp only [Bool.or_eq_true, Bool.and_eq_true, decide_eq_true_eq, UInt32.le_iff_toNat_le,
      ge_iff_le, Char.reduceVal, UInt32.reduceToNat] at hc
    show c.val.toNat < 128
    omega
  have := h c.toNat hlt
  rw [Char.ofNat_toNat] at this
  exact this hc

/-- Letters and digits stay letters and digits. -/
theorem isAlphanum_toUpper {c : Char} (h : c.isAlphanum = true) : c.toUpper.isAlphanum = true :=
  forall_isAlphanum (P := (·.toUpper.isAlphanum = true)) (by decide) h

theorem toUpper_ne {c d : Char} (h : c.isAlphanum = true) (hd : d.isAlphanum = false) :
    c.toUpper ≠ d := by
  rintro rfl
  rw [isAlphanum_toUpper h] at hd
  cases hd

/-- What is no capital letter can be told from what it becomes in capitals. -/
theorem toLower_toUpper {c : Char} (h : c.isAlphanum = true) (hupper : c.isUpper = false) :
    c.toUpper.toLower = c :=
  forall_isAlphanum (P := fun c => c.isUpper = false → c.toUpper.toLower = c) (by decide) h hupper

theorem guardChar_ne (c : Char) {d : Char} (hd : d.isAlphanum = false) (hne : d ≠ '_') :
    guardChar c ≠ d := by
  cases h : c.isAlphanum with
  | true => rw [guardChar_of_isAlphanum h]; exact toUpper_ne h hd
  | false => rw [guardChar_of_not_isAlphanum h]; exact hne.symm

theorem guardChar_eq_iff {c c' : Char} : guardChar c = guardChar c' ↔ Alike c c' := by
  have hunderscore : '_'.isAlphanum = false := by decide
  cases h : c.isAlphanum with
  | true =>
    rw [guardChar_of_isAlphanum h]
    cases h' : c'.isAlphanum with
    | true => simp [guardChar_of_isAlphanum h', Alike, h, h']
    | false => simp [guardChar_of_not_isAlphanum h', Alike, h, h', toUpper_ne h hunderscore]
  | false =>
    rw [guardChar_of_not_isAlphanum h]
    cases h' : c'.isAlphanum with
    | true => simp [guardChar_of_isAlphanum h', Alike, h, h', (toUpper_ne h' hunderscore).symm]
    | false => simp [guardChar_of_not_isAlphanum h', Alike, h, h']

theorem map_guardChar_eq_iff {cs cs' : List Char} :
    cs.map guardChar = cs'.map guardChar ↔ cs.Forall₂ Alike cs' := by
  rw [← List.forall₂_eq_eq_eq, List.forall₂_map_left_iff, List.forall₂_map_right_iff]
  simp only [guardChar_eq_iff]

/-- Large and small letters are alike, but no letter is like a digit; all other characters are. -/
example : Alike 'a' 'A' ∧ ¬ Alike 'O' '0' ∧ Alike 'é' '-' := by decide

/-- Characters of which no two are alike: small letters, digits and one that is neither. -/
def IsSimple (c : Char) : Prop := c.isUpper = false ∧ (c.isAlphanum = true ∨ c = '/')

theorem IsSimple.eq_of_alike {c c' : Char} (h : IsSimple c) (h' : IsSimple c') (ha : Alike c c') :
    c = c' := by
  obtain ⟨hupper, hc⟩ := h
  obtain ⟨hupper', hc'⟩ := h'
  obtain ⟨hsame, hcase⟩ := ha
  cases halnum : c.isAlphanum with
  | true =>
    have hlower := congrArg Char.toLower (hcase halnum)
    rwa [toLower_toUpper halnum hupper, toLower_toUpper (hsame ▸ halnum) hupper'] at hlower
  | false =>
    rw [halnum] at hc hsame
    rw [← hsame] at hc'
    simp only [Bool.false_eq_true, false_or] at hc hc'
    rw [hc, hc']

theorem eq_of_forall₂_alike {cs cs' : List Char} (h : cs.Forall₂ Alike cs')
    (hcs : ∀ c ∈ cs, IsSimple c) (hcs' : ∀ c ∈ cs', IsSimple c) : cs = cs' := by
  induction h with
  | nil => rfl
  | cons ha _ ih =>
    rw [List.forall_mem_cons] at hcs hcs'
    rw [hcs.1.eq_of_alike hcs'.1 ha, ih hcs.2 hcs'.2]

end TypeGen.Text

namespace TypeGen.Project

open TypeGen.Render TypeGen.Spec TypeGen.Store TypeGen.Text

/-! ### Guards of headers -/

namespace Layout

variable {l : Layout} {p q : FilePath}

theorem toList_headerGuard (l : Layout) (p : FilePath) : (l.headerGuard p).toList =
    ("_" ++ l.config.guardStem ++ "_").toList.map guardChar ++
      (l.relative p).text.toList.map guardChar := by
  rw [headerGuard, toList_guardIdentifier, String.toList_append, List.map_append]

theorem headerGuard_eq_iff : l.headerGuard p = l.headerGuard q ↔
    (l.relative p).text.toList.Forall₂ Alike (l.relative q).text.toList := by
  rw [← String.toList_inj, toList_headerGuard, toList_headerGuard, List.append_cancel_left_eq,
    map_guardChar_eq_iff]

/-- A guard is one word. -/
theorem notMem_headerGuard {c : Char} (hc : c.isAlphanum = false) (hne : c ≠ '_') :
    c ∉ (l.headerGuard p).toList := by
  rw [toList_headerGuard, ← List.map_append]
  intro hmem
  obtain ⟨c', -, hc'⟩ := List.mem_map.1 hmem
  exact guardChar_ne c' hc hne hc'

/-- Headers of simple names have one guard only if they are one. -/
theorem text_eq_of_headerGuard_eq {body body' : String}
    (hp : (l.relative p).text = body ++ l.headerSuffix)
    (hq : (l.relative q).text = body' ++ l.headerSuffix)
    (hbody : ∀ c ∈ body.toList, IsSimple c) (hbody' : ∀ c ∈ body'.toList, IsSimple c)
    (h : l.headerGuard p = l.headerGuard q) : (l.relative p).text = (l.relative q).text := by
  rw [headerGuard_eq_iff, ← map_guardChar_eq_iff, hp, hq, String.toList_append, String.toList_append,
    List.map_append, List.map_append, List.append_cancel_right_eq, map_guardChar_eq_iff] at h
  rw [hp, hq, String.toList_inj.1 (eq_of_forall₂_alike h hbody hbody')]

end Layout

/-! ### Translation units -/

/-- What a line asks of the preprocessor. -/
inductive Directive where
  | ifndef (name : List Char)
  | define (name : List Char)
  | endif
  | other

namespace Directive

def ofLine : List Char → Directive
  | '#' :: 'i' :: 'f' :: 'n' :: 'd' :: 'e' :: 'f' :: ' ' :: name => .ifndef name
  | '#' :: 'd' :: 'e' :: 'f' :: 'i' :: 'n' :: 'e' :: ' ' :: name => .define name
  | '#' :: 'e' :: 'n' :: 'd' :: 'i' :: 'f' :: _ => .endif
  | _ => .other

theorem ofLine_ifndef (name : List Char) : ofLine ("#ifndef ".toList ++ name) = .ifndef name := by
  have hword : "#ifndef ".toList = ['#', 'i', 'f', 'n', 'd', 'e', 'f', ' '] := by decide
  rw [hword]
  rfl

theorem ofLine_define (name : List Char) : ofLine ("#define ".toList ++ name) = .define name := by
  have hword : "#define ".toList = ['#', 'd', 'e', 'f', 'i', 'n', 'e', ' '] := by decide
  rw [hword]
  rfl

theorem ofLine_endif (name : List Char) : ofLine ("#endif // ".toList ++ name) = .endif := by
  have hword : "#endif // ".toList = ['#', 'e', 'n', 'd', 'i', 'f', ' ', '/', '/', ' '] := by decide
  rw [hword]
  rfl

theorem ofLine_of_head? {line : List Char} (h : line.head? ≠ some '#') : ofLine line = .other := by
  unfold ofLine
  split <;> simp_all

/-- Lines that do not decide what is kept: those that are no directives, and includes. -/
def IsNeutral (line : List Char) : Prop :=
  (line.dropWhile isBlank).head? = some '#' → "#include ".toList <+: line

instance (line : List Char) : Decidable (IsNeutral line) := inferInstanceAs (Decidable (_ → _))

theorem IsNeutral.ofLine {line : List Char} (h : IsNeutral line) : Directive.ofLine line = .other := by
  by_cases hhead : line.head? = some '#'
  · obtain ⟨rest, rfl⟩ : ∃ rest, line = '#' :: rest := by
      cases line with
      | nil => cases hhead
      | cons c rest => cases hhead; exact ⟨rest, rfl⟩
    have hword : "#include ".toList = ['#', 'i', 'n', 'c', 'l', 'u', 'd', 'e', ' '] := by decide
    obtain ⟨path, hpath⟩ := h rfl
    rw [← hpath, hword]
    rfl
  · exact ofLine_of_head? hhead

end Directive

/-- A translation unit as far as it has been read. -/
structure TranslationUnit where
  defined : List (List Char)
  /-- How many conditionals are open since lines are left out. -/
  depth : Nat
  kept : List (List Char)

namespace TranslationUnit

def empty : TranslationUnit := ⟨[], 0, []⟩

def readLine (u : TranslationUnit) (line : List Char) : TranslationUnit :=
  match Directive.ofLine line with
  | .ifndef name =>
    if u.depth = 0 ∧ name ∉ u.defined then u else { u with depth := u.depth + 1 }
  | .define name => if u.depth = 0 then { u with defined := name :: u.defined } else u
  | .endif => { u with depth := u.depth - 1 }
  | .other => if u.depth = 0 then { u with kept := u.kept ++ [line] } else u

def readLines (u : TranslationUnit) (ls : List (List Char)) : TranslationUnit := ls.foldl readLine u

/-- Reads a file that is included. What it includes in turn is left out. -/
def readText (u : TranslationUnit) (text : String) : TranslationUnit := u.readLines (lines text.toList)

variable {u : TranslationUnit} {ls : List (List Char)}

theorem readLines_append (u : TranslationUnit) (ls ls' : List (List Char)) :
    u.readLines (ls ++ ls') = (u.readLines ls).readLines ls' := List.foldl_append

theorem readLines_cons (u : TranslationUnit) (line : List Char) (ls : List (List Char)) :
    u.readLines (line :: ls) = (u.readLine line).readLines ls := rfl

theorem readLines_of_depth_eq_zero (h : ∀ line ∈ ls, Directive.ofLine line = .other)
    (hu : u.depth = 0) : u.readLines ls = { u with kept := u.kept ++ ls } := by
  induction ls generalizing u with
  | nil => simp [readLines]
  | cons line ls ih =>
    rw [List.forall_mem_cons] at h
    have hline : u.readLine line = { u with kept := u.kept ++ [line] } := by
      rw [readLine, h.1]
      exact if_pos hu
    rw [readLines_cons, hline, ih (u := { u with kept := u.kept ++ [line] }) h.2 hu]
    simp

theorem readLines_of_depth_ne_zero (h : ∀ line ∈ ls, Directive.ofLine line = .other)
    (hu : u.depth ≠ 0) : u.readLines ls = u := by
  induction ls with
  | nil => rfl
  | cons line ls ih =>
    rw [List.forall_mem_cons] at h
    have hline : u.readLine line = u := by
      rw [readLine, h.1]
      exact if_neg hu
    rw [readLines_cons, hline, ih h.2]

end TranslationUnit

/-! ### Generated headers -/

namespace Draft

/-- What stands in the header ahead of its guard. -/
def opening (w : Draft) (l : Layout) : List (List Char) :=
  lines (disclaimer (w.name l) ++ w.metadata.render ++ "\n").toList

/-- What stands in the header between the lines of its guard. -/
def body (w : Draft) : List (List Char) := lines ("\n" ++ headerCode w.content ++ "\n").toList

/-- The guard decides alone what is kept of the header. -/
structure IsPlain (w : Draft) (l : Layout) : Prop where
  name : '\n' ∉ (w.name l).toList
  body : ∀ line ∈ w.body, Directive.IsNeutral line

variable {w v : Draft} {l : Layout}

theorem toList_headerText (name : String) (m : Metadata) (guard code : String) :
    (Project.headerText name m guard code).toList = (disclaimer name ++ m.render).toList ++ '\n' ::
      (("#ifndef ".toList ++ guard.toList) ++ '\n' :: (("#define ".toList ++ guard.toList) ++ '\n' ::
        (('\n' :: code.toList) ++ '\n' :: (("#endif // ".toList ++ guard.toList) ++ '\n' :: [])))) := by
  simp [Project.headerText, String.toList_append]

theorem lines_headerText (w : Draft) (l : Layout) : lines (w.headerText l).toList =
    w.opening l ++ ("#ifndef ".toList ++ (l.headerGuard w.header).toList) ::
      ("#define ".toList ++ (l.headerGuard w.header).toList) ::
        (w.body ++ ["#endif // ".toList ++ (l.headerGuard w.header).toList]) := by
  have hfeed : '\n' ∉ (l.headerGuard w.header).toList := Layout.notMem_headerGuard (by decide) (by decide)
  have hreturn : '\r' ∉ (l.headerGuard w.header).toList :=
    Layout.notMem_headerGuard (by decide) (by decide)
  rw [opening, body, headerText, toList_headerText]
  generalize (l.headerGuard w.header).toList = guard at hfeed hreturn
  have hline : ∀ (word : String) (rest : List Char), '\n' ∉ word.toList → '\r' ∉ word.toList →
      lines ((word.toList ++ guard) ++ '\n' :: rest) = (word.toList ++ guard) :: lines rest := by
    intro word rest hword hword'
    rw [lines_cons (by simp [hword, hfeed]), dropReturn, if_neg]
    intro h0
    have hmem := List.mem_of_getLast? h0
    simp [hword', hreturn] at hmem
  rw [lines_append_newline, hline "#ifndef " _ (by decide) (by decide),
    hline "#define " _ (by decide) (by decide),
    lines_append_newline ('\n' :: (headerCode w.content).toList),
    hline "#endif // " _ (by decide) (by decide)]
  have hnil : lines [] = [] := rfl
  simp [String.toList_append, hnil]

theorem neutral_opening (h : '\n' ∉ (w.name l).toList) {line : List Char} (hline : line ∈ w.opening l) :
    Directive.ofLine line = .other := by
  have hlines : w.opening l = lines (disclaimer (w.name l)).toList ++
      (Metadata.tag.toList :: ['\x7b'] :: w.metadata.member :: ['\x7d'] ::
        Metadata.closing.toList :: lines ['\n']) := by
    have hends : ∃ cs, (disclaimer (w.name l)).toList = cs ++ ['\n'] := by
      obtain ⟨s, hs⟩ : ∃ s, disclaimer (w.name l) = s ++ "\n" := ⟨_, rfl⟩
      exact ⟨s.toList, by rw [hs, String.toList_append]; rfl⟩
    rw [opening, String.toList_append, String.toList_append, List.append_assoc]
    exact Metadata.lines_render (.inr hends) _ _
  have hlast : lines ['\n'] = [[]] := by decide
  rw [hlines, hlast] at hline
  simp only [List.mem_append, List.mem_cons, List.not_mem_nil, or_false] at hline
  refine Directive.ofLine_of_head? ?_
  rcases hline with hline | rfl | rfl | rfl | rfl | rfl | rfl
  · obtain ⟨rest, rfl⟩ := lines_disclaimer h hline
    simp
  · decide
  · decide
  · have hblank : ("  \"" ++ Metadata.key ++ "\": ").toList.head? = some ' ' := by decide
    rw [Metadata.member, List.head?_append, hblank]
    simp
  · decide
  · decide
  · decide

end Draft

namespace TranslationUnit

theorem readText_headerText {w : Draft} {l : Layout} (h : w.IsPlain l) (defined kept : List (List Char)) :
    (⟨defined, 0, kept⟩ : TranslationUnit).readText (w.headerText l) =
      if (l.headerGuard w.header).toList ∈ defined then ⟨defined, 0, kept ++ w.opening l⟩
      else ⟨(l.headerGuard w.header).toList :: defined, 0, kept ++ w.opening l ++ w.body⟩ := by
  have hopening := readLines_of_depth_eq_zero (u := ⟨defined, 0, kept⟩)
    (fun _ => Draft.neutral_opening h.name) rfl
  have hbody : ∀ line ∈ w.body, Directive.ofLine line = .other := fun line hline => (h.body line hline).ofLine
  rw [readText, Draft.lines_headerText, readLines_append, hopening]
  simp only [readLines_cons, readLines_append]
  generalize (l.headerGuard w.header).toList = guard
  split
  next hmem =>
    have hifndef : readLine ⟨defined, 0, kept ++ w.opening l⟩ ("#ifndef ".toList ++ guard) =
        ⟨defined, 1, kept ++ w.opening l⟩ := by
      rw [readLine, Directive.ofLine_ifndef]
      simp [hmem]
    have hdefine : readLine ⟨defined, 1, kept ++ w.opening l⟩ ("#define ".toList ++ guard) =
        ⟨defined, 1, kept ++ w.opening l⟩ := by
      rw [readLine, Directive.ofLine_define]
      rfl
    rw [hifndef, hdefine, readLines_of_depth_ne_zero hbody Nat.one_ne_zero, readLine,
      Directive.ofLine_endif]
    rfl
  next hmem =>
    have hifndef : readLine ⟨defined, 0, kept ++ w.opening l⟩ ("#ifndef ".toList ++ guard) =
        ⟨defined, 0, kept ++ w.opening l⟩ := by
      rw [readLine, Directive.ofLine_ifndef]
      simp [hmem]
    have hdefine : readLine ⟨defined, 0, kept ++ w.opening l⟩ ("#define ".toList ++ guard) =
        ⟨guard :: defined, 0, kept ++ w.opening l⟩ := by
      rw [readLine, Directive.ofLine_define]
      rfl
    rw [hifndef, hdefine, readLines_of_depth_eq_zero hbody rfl, readLine, Directive.ofLine_endif]
    rfl

end TranslationUnit

/-- The empty struct under another name in the sample project. -/
def emptyDraft (stem : String) : Draft where
  spec := FilePath.ofString ("r/" ++ stem ++ ".struct.toml")
  header := FilePath.ofString ("r/" ++ stem ++ ".dtg.h")
  text := emptyStruct
  content := .struct ⟨⟨"A", none, [], .ofList [], [], [], [], [], none⟩, []⟩

end TypeGen.Project
