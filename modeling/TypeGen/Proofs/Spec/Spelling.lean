import Mathlib.Data.List.DropRight
import TypeGen.Proofs.Spec.Includes
import TypeGen.Proofs.Spec.Occurrences

/-!
Spelling includes. A text is read as an include exactly when there are only blanks around a path, or
around a path in angle brackets; where the brackets are cut off, a character ends. The line that stands
for an include in a file stands for no other one, and so does the path as a spec has it.
-/

namespace TypeGen.Text

/-! ### Blanks around a text -/

/-- A text that is another one with blanks around it. -/
def IsPadded (s t : String) : Prop := ∃ before after, s.toList = before ++ t.toList ++ after ∧
  (∀ c ∈ before, isBlank c = true) ∧ ∀ c ∈ after, isBlank c = true

theorem dropWhile_padded {p : Char → Bool} {before cs : List Char} {c : Char}
    (hbefore : ∀ c ∈ before, p c = true) (hc : p c = false) :
    (before ++ c :: cs).dropWhile p = c :: cs := by
  rw [List.dropWhile_append_of_pos hbefore, List.dropWhile_cons, hc]; rfl

/-- Trimming takes the blanks around a text away, and no more of it. -/
theorem trim_padded {before cs after : List Char} (hbefore : ∀ c ∈ before, isBlank c = true)
    (hcs : ∀ c ∈ cs, isBlank c = false) (hne : cs ≠ []) (hafter : ∀ c ∈ after, isBlank c = true) :
    trim (before ++ cs ++ after) = cs := by
  have hfront : (before ++ cs ++ after).dropWhile isBlank = cs ++ after := by
    obtain ⟨c, rest, rfl⟩ := List.exists_cons_of_ne_nil hne
    rw [List.append_assoc]
    exact dropWhile_padded hbefore (hcs c (List.mem_cons_self ..))
  obtain ⟨init, c, rfl⟩ := (List.eq_nil_or_concat cs).resolve_left hne
  rw [List.concat_eq_append] at hcs hfront ⊢
  have hback : (init ++ [c] ++ after).reverse = after.reverse ++ c :: init.reverse := by simp
  rw [trim, hfront, trimEnd, dropEnd, hback,
    dropWhile_padded (by simpa using hafter) (hcs c (by simp))]
  simp

theorem isPadded_of_trim {s t : String} (h : trim s.toList = t.toList) : IsPadded s t := by
  refine ⟨s.toList.takeWhile isBlank, (s.toList.dropWhile isBlank).rtakeWhile isBlank, ?_,
    fun c hc => List.mem_takeWhile_imp hc, fun c hc => List.mem_rtakeWhile_imp hc⟩
  have hback : t.toList ++ (s.toList.dropWhile isBlank).rtakeWhile isBlank =
      s.toList.dropWhile isBlank := by
    rw [← h]
    exact List.rdropWhile_append_rtakeWhile
  rw [List.append_assoc, hback, List.takeWhile_append_dropWhile]

/-! ### Cutting bytes off -/

/-- The text in front of a byte. There is none if the byte is behind the end or within a character. -/
def sliceTo? (s : String) (bytes : Nat) : Option String :=
  if h : (String.Pos.Raw.mk bytes).IsValid s then some (s.sliceTo (s.pos ⟨bytes⟩ h)).copy else none

/-- A text without its last byte. There is none if there are no bytes or a character is cut apart. -/
def dropByte? (s : String) : Option String :=
  match s.utf8ByteSize with
  | 0 => none
  | n + 1 => sliceTo? s n

theorem sliceTo?_append (s t : String) : sliceTo? (s ++ t) s.utf8ByteSize = some s := by
  have hvalid : (String.Pos.Raw.mk s.utf8ByteSize).IsValid (s ++ t) :=
    String.Pos.Raw.isValid_iff_exists_append.2 ⟨s, t, rfl, rfl⟩
  have hsplits : ((s ++ t).pos ⟨s.utf8ByteSize⟩ hvalid).Splits s t := ⟨rfl, rfl⟩
  rw [sliceTo?, dif_pos hvalid, ← hsplits.eq_left (String.Pos.splits _)]

/-- A character of one byte can be cut off. -/
theorem dropByte?_push (s : String) {c : Char} (h : c.utf8Size = 1) : dropByte? (s.push c) = some s := by
  have hsize : (s ++ String.singleton c).utf8ByteSize = s.utf8ByteSize + 1 := by
    rw [String.utf8ByteSize_append, String.utf8ByteSize_singleton, h]
  rw [← String.append_singleton, dropByte?, hsize]
  exact sliceTo?_append s (String.singleton c)

end TypeGen.Text

namespace TypeGen.Spec.Include

open TypeGen.Text

/-! ### Cutting brackets off -/

/-- Reads an include by what the trimmed text starts and ends with, two tests that know nothing of each
other, and cuts brackets off by bytes. There is no answer if a cut fails. -/
def sliced? (s : String) : Option (Option Include) :=
  let cs := trim s.toList
  match cs, decide (cs.getLast? = some '>') with
  | '<' :: rest, true => (dropByte? (String.ofList rest)).map fun path => ofPath? true path.toList
  | '<' :: _, false => some none
  | _, true => some none
  | _, false => some (ofPath? false cs)

theorem dropByte?_dropLast {cs : List Char} (h : cs.getLast? = some '>') :
    dropByte? (String.ofList cs) = some (String.ofList cs.dropLast) := by
  have hpush : String.ofList cs = (String.ofList cs.dropLast).push '>' := by
    rw [← String.toList_inj, String.toList_push, String.toList_ofList, String.toList_ofList,
      List.dropLast_append_getLast? _ h]
  rw [hpush]
  exact dropByte?_push _ rfl

/-- Every cut is made where a character ends, and the answer is that of reading by characters. -/
theorem sliced?_eq (s : String) : sliced? s = some (parse? s) := by
  rw [sliced?, parse?]
  cases trim s.toList with
  | nil => rfl
  | cons c rest =>
    by_cases hc : c = '<'
    · subst hc
      -- one bracket alone ends in no bracket of the other kind
      have hlast : ('<' :: rest).getLast? = some '>' ↔ rest.getLast? = some '>' := by
        cases rest with
        | nil => decide
        | cons => rw [List.getLast?_cons_cons]
      by_cases h : rest.getLast? = some '>'
      · simp [hlast, h, dropByte?_dropLast h]
      · simp [hlast, h]
    · by_cases h : (c :: rest).getLast? = some '>' <;> simp [hc, h]

/-! ### Spellings -/

/-- A path that an include can have. -/
structure IsPath (path : String) : Prop where
  nonempty : path ≠ ""
  clean : ∀ c ∈ path.toList, c ≠ '<' ∧ c ≠ '>' ∧ c ≠ '"' ∧ isBlank c = false

theorem isForbidden_eq_false {c : Char} :
    isForbidden c = false ↔ c ≠ '<' ∧ c ≠ '>' ∧ c ≠ '"' ∧ isBlank c = false := by
  simp [isForbidden, and_assoc]

/-- A path is spelled without blanks. -/
theorem IsPath.notBlank_written {i : Include} (h : IsPath i.path) :
    i.written.toList ≠ [] ∧ ∀ c ∈ i.written.toList, isBlank c = false := by
  have hpath : i.path.toList ≠ [] := by simpa using h.nonempty
  have hclean : ∀ c ∈ i.path.toList, isBlank c = false := fun c hc => (h.clean c hc).2.2.2
  rw [toList_written]
  split
  · refine ⟨List.cons_ne_nil _ _, fun c hc => ?_⟩
    simp only [List.mem_cons, List.mem_append, List.not_mem_nil, or_false] at hc
    rcases hc with rfl | hc | rfl
    · decide
    · exact hclean c hc
    · decide
  · exact ⟨hpath, hclean⟩

theorem parse?_eq_some_iff {s : String} {i : Include} :
    parse? s = some i ↔ IsPadded s i.written ∧ IsPath i.path := by
  rw [parse?_eq_some]
  constructor
  · intro h
    exact ⟨isPadded_of_trim h.written, h.nonempty, fun c hc => isForbidden_eq_false.1 (h.clean c hc)⟩
  · rintro ⟨⟨before, after, hs, hbefore, hafter⟩, hpath⟩
    obtain ⟨hne, hblank⟩ := hpath.notBlank_written
    refine ⟨?_, hpath.nonempty, fun c hc => isForbidden_eq_false.2 (hpath.clean c hc)⟩
    rw [hs, trim_padded hbefore hblank hne hafter]

theorem parse?_written {i : Include} (h : IsPath i.path) : parse? i.written = some i :=
  parse?_eq_some_iff.2 ⟨⟨[], [], by simp, by simp, by simp⟩, h⟩

/-- In the line that stands for an include there is one blank, behind the first word; no line ends. -/
theorem eq_space_of_mem_directive {i : Include} (h : IsPath i.path) {c : Char}
    (hc : c ∈ i.directive.toList) (hblank : isBlank c = true) : c = ' ' := by
  have hpath : c ∉ i.path.toList := fun hmem => by simp [(h.clean c hmem).2.2.2] at hblank
  have hword : ∀ word : List Char, word.all (fun c => !isBlank c || c = ' ') = true →
      c ∈ word → c = ' ' := by
    intro word hall hmem
    simpa [hblank] using List.all_eq_true.1 hall c hmem
  rw [directive] at hc
  split at hc
  · simp only [String.toList_append, List.mem_append, hpath, or_false] at hc
    rcases hc with hc | hc
    · exact hword "#include <".toList (by decide) hc
    · exact hword ">".toList (by decide) hc
  · simp only [String.toList_append, List.mem_append, hpath, or_false] at hc
    rcases hc with hc | hc
    · exact hword "#include \"".toList (by decide) hc
    · exact hword "\"".toList (by decide) hc

/-- Cutting a text by bytes gives an answer for every text, and it is an include exactly for a path and
for a path in angle brackets, blanks around them aside. Includes that are read have different lines in a
file, which have no blank but one and so no line breaks, and each is read from its own spelling. -/
theorem parse?_iff_padded (s : String) :
    sliced? s = some (parse? s) ∧
    (∀ path, parse? s = some ⟨path, true⟩ ↔ IsPadded s ("<" ++ path ++ ">") ∧ IsPath path) ∧
    (∀ path, parse? s = some ⟨path, false⟩ ↔ IsPadded s path ∧ IsPath path) ∧
    ∀ i, parse? s = some i →
      parse? (if i.system then "<" ++ i.path ++ ">" else i.path) = some i ∧
      (∀ c ∈ i.directive.toList, isBlank c = true → c = ' ') ∧
      ∀ t j, parse? t = some j → j.directive = i.directive → j = i := by
  refine ⟨sliced?_eq s, fun path => parse?_eq_some_iff, fun path => parse?_eq_some_iff, ?_⟩
  intro i hi
  obtain ⟨-, hpath⟩ := parse?_eq_some_iff.1 hi
  refine ⟨parse?_written hpath, fun c hc hblank => eq_space_of_mem_directive hpath hc hblank, ?_⟩
  intro t j _ hline
  exact directive_injective hline

theorem parse?_iff_padded_wide :
    parse? "\u3000<größe.h>\t" = some ⟨"größe.h", true⟩ ∧
    parse? "<größe.h>" = some ⟨"größe.h", true⟩ ∧
    ∀ t j, parse? t = some j → j.directive = "#include <größe.h>" → j = ⟨"größe.h", true⟩ := by
  obtain ⟨-, -, -, hread⟩ := parse?_iff_padded "\u3000<größe.h>\t"
  have hi : parse? "\u3000<größe.h>\t" = some ⟨"größe.h", true⟩ := by decide
  obtain ⟨hwritten, -, hline⟩ := hread _ hi
  exact ⟨hi, hwritten, hline⟩

example : ["", "<", "<>", "< a>", "<<a>>", "a>", "\"a\""].filterMap parse? = [] := by decide

end TypeGen.Spec.Include
