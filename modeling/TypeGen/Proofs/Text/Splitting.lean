import Mathlib.Data.List.DropRight
import Mathlib.Data.List.Induction
import TypeGen.Text.Blank

/-!
Cutting texts: into pieces at a separator, into lines, and off an ending.
-/

namespace TypeGen.Text

/-! ### Pieces -/

theorem splitAt_of_notMem {c : Char} : ∀ {cs : List Char}, c ∉ cs → splitAt c cs = [cs]
  | [], _ => rfl
  | x :: xs, h => by
    obtain ⟨hx, hxs⟩ := not_or.1 (mt List.mem_cons.2 h)
    rw [splitAt, if_neg (Ne.symm hx), splitAt_of_notMem hxs]

theorem notMem_of_mem_splitAt {c : Char} : ∀ {cs piece : List Char}, piece ∈ splitAt c cs → c ∉ piece
  | [], piece, h => by simp_all [splitAt]
  | x :: xs, piece, h => by
    rw [splitAt] at h
    split at h
    · rcases List.mem_cons.1 h with rfl | h
      · simp
      · exact notMem_of_mem_splitAt h
    · next hx =>
      split at h
      · next hs => exact absurd hs (splitAt_ne_nil c xs)
      · next first rest hs =>
        rcases List.mem_cons.1 h with rfl | h
        · have hfirst : c ∉ first := notMem_of_mem_splitAt (by rw [hs]; exact List.mem_cons_self ..)
          exact fun hc => (List.mem_cons.1 hc).elim (Ne.symm hx) hfirst
        · exact notMem_of_mem_splitAt (by rw [hs]; exact List.mem_cons_of_mem _ h)

theorem splitAt_append {c : Char} {bs first : List Char} {rest : List (List Char)}
    (h : splitAt c bs = first :: rest) : ∀ {cs : List Char}, c ∉ cs →
      splitAt c (cs ++ bs) = (cs ++ first) :: rest
  | [], _ => h
  | x :: xs, hc => by
    obtain ⟨hx, hxs⟩ := not_or.1 (mt List.mem_cons.2 hc)
    rw [List.cons_append, splitAt, if_neg (Ne.symm hx), splitAt_append h hxs]; rfl

theorem splitAt_tail_ne_nil {c : Char} {first : List Char} {rest : List (List Char)} :
    ∀ {cs : List Char}, c ∈ cs → splitAt c cs = first :: rest → rest ≠ []
  | x :: xs, hc, h => by
    rw [splitAt] at h
    split at h
    · cases h; exact splitAt_ne_nil c xs
    · next hx =>
      have hxs : c ∈ xs := (List.mem_cons.1 hc).resolve_left (Ne.symm hx)
      split at h
      · next hs => exact absurd hs (splitAt_ne_nil c xs)
      · next hs => cases h; exact splitAt_tail_ne_nil hxs hs

/-- The last piece is what the text ends in. -/
theorem suffix_of_getLast?_splitAt {c : Char} {piece : List Char} :
    ∀ {cs : List Char}, (splitAt c cs).getLast? = some piece → piece <:+ cs
  | [], h => by cases h; exact List.suffix_refl _
  | x :: xs, h => by
    by_cases hc : c ∈ x :: xs
    · rw [splitAt] at h
      split at h
      next =>
        rw [List.getLast?_cons_of_ne_nil (splitAt_ne_nil c xs)] at h
        exact (suffix_of_getLast?_splitAt h).trans (List.suffix_cons x xs)
      next hx =>
        split at h
        next hs => exact absurd hs (splitAt_ne_nil c xs)
        next first rest hs =>
          have hrest := splitAt_tail_ne_nil ((List.mem_cons.1 hc).resolve_left (Ne.symm hx)) hs
          rw [List.getLast?_cons_of_ne_nil hrest] at h
          have hpiece : (splitAt c xs).getLast? = some piece := by
            rw [hs, List.getLast?_cons_of_ne_nil hrest, h]
          exact (suffix_of_getLast?_splitAt hpiece).trans (List.suffix_cons x xs)
    · rw [splitAt_of_notMem hc] at h
      cases h; exact List.suffix_refl _

/-- An ending without a character of the text ends behind the last of them. -/
theorem suffix_of_notMem {c : Char} {xs ys zs : List Char} (hc : c ∉ zs) (h : zs <:+ xs ++ c :: ys) :
    zs <:+ ys := by
  have hys : ys <:+ xs ++ c :: ys := ⟨xs ++ [c], by simp⟩
  rcases List.suffix_or_suffix_of_suffix h hys with hz | ⟨u, rfl⟩
  · exact hz
  · obtain ⟨w, hw⟩ := h
    have hwhole : w ++ u ++ ys = xs ++ [c] ++ ys := by rw [List.append_assoc, hw]; simp
    have hwu : w ++ u = xs ++ [c] := List.append_cancel_right hwhole
    rcases List.eq_nil_or_concat u with rfl | ⟨init, last, rfl⟩
    · exact List.suffix_refl _
    · rw [List.concat_eq_append, ← List.append_assoc] at hwu
      have hlast : last = c := by simpa using List.append_inj_right' hwu rfl
      exact absurd (by simp [hlast]) hc

theorem splitAt_append_cons (c : Char) (bs : List Char) : ∀ cs : List Char,
    splitAt c (cs ++ c :: bs) = splitAt c cs ++ splitAt c bs
  | [] => by rw [List.nil_append, splitAt, splitAt, if_pos rfl]; rfl
  | x :: xs => by
    rw [List.cons_append, splitAt, splitAt, splitAt_append_cons c bs xs]
    split
    · rfl
    · cases hs : splitAt c xs with
      | nil => exact absurd hs (splitAt_ne_nil c xs)
      | cons first rest => rfl

theorem prefix_of_splitAt {sep : Char} {first : List Char} {rest : List (List Char)} :
    ∀ {cs : List Char}, splitAt sep cs = first :: rest → first <+: cs
  | [], h => by cases h; exact List.prefix_rfl
  | c :: cs, h => by
    rw [splitAt] at h
    split at h
    · cases h; exact List.nil_prefix
    · split at h
      next hs => exact absurd hs (splitAt_ne_nil sep cs)
      next piece more hs => cases h; exact (List.prefix_cons_inj c).2 (prefix_of_splitAt hs)

/-- Every piece is a part of the text. -/
theorem infix_of_mem_splitAt {sep : Char} {piece : List Char} :
    ∀ {cs : List Char}, piece ∈ splitAt sep cs → piece <:+: cs
  | [], h => List.mem_singleton.1 h ▸ List.infix_rfl
  | c :: cs, h => by
    rw [splitAt] at h
    split at h
    · rcases List.mem_cons.1 h with rfl | h
      · exact List.nil_infix
      · exact (infix_of_mem_splitAt h).trans (List.suffix_cons c cs).isInfix
    · split at h
      next hs => exact absurd hs (splitAt_ne_nil sep cs)
      next first more hs =>
        rcases List.mem_cons.1 h with rfl | h
        · exact ((List.prefix_cons_inj c).2 (prefix_of_splitAt hs)).isInfix
        · exact (infix_of_mem_splitAt (hs ▸ List.mem_cons_of_mem _ h)).trans
            (List.suffix_cons c cs).isInfix

/-! ### The last piece -/

theorem splitAt_concat (c : Char) (cs : List Char) : splitAt c (cs ++ [c]) = splitAt c cs ++ [[]] :=
  splitAt_append_cons c [] cs

theorem exists_splitAt_eq_concat (c : Char) (cs : List Char) :
    ∃ before line, splitAt c cs = before ++ [line] := by
  rcases List.eq_nil_or_concat (splitAt c cs) with h | ⟨before, line, h⟩
  · exact absurd h (splitAt_ne_nil c cs)
  · exact ⟨before, line, by rw [h, List.concat_eq_append]⟩

/-- A word that is added at the end belongs to the last piece. -/
theorem splitAt_append_word {c : Char} {cs line w : List Char} {before : List (List Char)}
    (h : splitAt c cs = before ++ [line]) (hw : c ∉ w) : splitAt c (cs ++ w) = before ++ [line ++ w] := by
  induction cs using List.reverseRecOn generalizing before line w with
  | nil =>
    obtain ⟨rfl, hline⟩ := List.append_inj' (show [] ++ [[]] = before ++ [line] from h) rfl
    rw [List.nil_append, splitAt_of_notMem hw, ← List.singleton_inj.1 hline]
    rfl
  | append_singleton cs x ih =>
    rw [List.append_assoc]
    by_cases hx : x = c
    · subst hx
      rw [splitAt_concat] at h
      obtain ⟨rfl, hline⟩ := List.append_inj' h rfl
      rw [← List.singleton_inj.1 hline]
      exact (splitAt_append_cons x w cs).trans (by rw [splitAt_of_notMem hw]; rfl)
    · obtain ⟨before', line', h'⟩ := exists_splitAt_eq_concat c cs
      have hword : ∀ w, c ∉ w → splitAt c (cs ++ w) = before' ++ [line' ++ w] := fun w hw => ih h' hw
      rw [hword [x] (by simpa using Ne.symm hx)] at h
      obtain ⟨rfl, hline⟩ := List.append_inj' h rfl
      rw [← List.singleton_inj.1 hline, hword ([x] ++ w) (by simp [Ne.symm hx, hw]), List.append_assoc]

/-- A line begins at the end of the text. -/
def startsLine (cs : List Char) : Bool := cs.getLast?.all (· = '\n')

theorem startsLine_concat (cs : List Char) (c : Char) :
    startsLine (cs ++ [c]) = (c = '\n' : Bool) := by simp [startsLine]

/-- A line begins where nothing is written and behind every line feed. -/
theorem startsLine_iff {t : String} :
    startsLine t.toList = true ↔ t = "" ∨ ∃ lines, t = lines ++ "\n" := by
  constructor
  · intro h
    rcases List.eq_nil_or_concat t.toList with ht | ⟨cs, c, ht⟩
    · exact .inl (by simpa using ht)
    · rw [List.concat_eq_append] at ht
      rw [ht, startsLine_concat, decide_eq_true_eq] at h
      exact .inr ⟨String.ofList cs, by rw [← String.toList_inj, ht, h]; simp⟩
  · rintro (rfl | ⟨lines, rfl⟩)
    · rfl
    · rw [String.toList_append]
      exact startsLine_concat lines.toList '\n'

theorem isEmpty_lastLine {cs line : List Char} {before : List (List Char)}
    (h : splitAt '\n' cs = before ++ [line]) : line.isEmpty = startsLine cs := by
  rcases List.eq_nil_or_concat cs with rfl | ⟨cs, c, rfl⟩
  · obtain ⟨-, hline⟩ := List.append_inj' (show [] ++ [[]] = before ++ [line] from h) rfl
    rw [← List.singleton_inj.1 hline]; rfl
  · rw [List.concat_eq_append] at h ⊢
    rw [startsLine_concat]
    by_cases hc : c = '\n'
    · subst hc
      rw [splitAt_concat] at h
      obtain ⟨-, hline⟩ := List.append_inj' h rfl
      rw [← List.singleton_inj.1 hline]; rfl
    · obtain ⟨before', line', h'⟩ := exists_splitAt_eq_concat '\n' cs
      rw [splitAt_append_word h' (by simpa using Ne.symm hc)] at h
      obtain ⟨-, hline⟩ := List.append_inj' h rfl
      rw [← List.singleton_inj.1 hline]
      simp [hc]

/-! ### Joining -/

theorem intercalate_concat (sep : List Char) : ∀ (ls : List (List Char)) (l w : List Char),
    sep.intercalate (ls ++ [l ++ w]) = sep.intercalate (ls ++ [l]) ++ w
  | [], l, w => by simp
  | [k], l, w => by simp
  | k :: k' :: ls, l, w => by
    have ih := intercalate_concat sep (k' :: ls) l w
    simp only [List.cons_append, List.intercalate_cons_cons] at ih ⊢
    rw [ih]; simp

theorem intercalate_concat_nil (sep : List Char) : ∀ {ls : List (List Char)}, ls ≠ [] →
    sep.intercalate (ls ++ [[]]) = sep.intercalate ls ++ sep
  | [k], _ => by simp
  | k :: k' :: ls, _ => by
    have ih := intercalate_concat_nil sep (List.cons_ne_nil k' ls)
    simp only [List.cons_append, List.intercalate_cons_cons] at ih ⊢
    rw [ih]; simp

/-- The pieces of a text make up the text. -/
theorem intercalate_splitAt (c : Char) : ∀ cs : List Char, [c].intercalate (splitAt c cs) = cs
  | [] => rfl
  | x :: xs => by
    have ih := intercalate_splitAt c xs
    rw [splitAt]
    obtain ⟨first, rest, hs⟩ := List.exists_cons_of_ne_nil (splitAt_ne_nil c xs)
    rw [hs] at ih ⊢
    split
    next hx => rw [List.intercalate_cons_cons, ih, hx]; rfl
    next =>
      cases rest with
      | nil => simpa using ih
      | cons second rest =>
        rw [List.intercalate_cons_cons] at ih ⊢
        rw [List.cons_append, List.cons_append, ih]

/-! ### Lines -/

theorem linesOf_append {qs : List (List Char)} (h : qs ≠ []) : ∀ ps : List (List Char),
    linesOf (ps ++ qs) = ps.map dropReturn ++ linesOf qs
  | [] => rfl
  | p :: ps => by
    obtain ⟨x, xs, hx⟩ := List.exists_cons_of_ne_nil (l := ps ++ qs) (by simp [h])
    rw [List.cons_append, List.map_cons, List.cons_append, ← linesOf_append h ps, hx, linesOf]
    simp

/-- A text that ends a line goes before a text without changing its lines. -/
theorem lines_append_newline (cs bs : List Char) :
    lines (cs ++ '\n' :: bs) = lines (cs ++ ['\n']) ++ lines bs := by
  rw [lines, lines, lines, splitAt_append_cons, splitAt_append_cons,
    linesOf_append (splitAt_ne_nil _ _), linesOf_append (splitAt_ne_nil _ _)]
  simp [splitAt, linesOf]

theorem lines_cons {line : List Char} (h : '\n' ∉ line) (rest : List Char) :
    lines (line ++ '\n' :: rest) = dropReturn line :: lines rest := by
  rw [lines, lines, splitAt_append_cons, splitAt_of_notMem h,
    linesOf_append (splitAt_ne_nil _ _)]
  rfl

theorem exists_of_mem_linesOf {line : List Char} : ∀ {ps : List (List Char)}, line ∈ linesOf ps →
    ∃ piece ∈ ps, line <+: piece
  | [], h => by cases h
  | [last], h => by
    rw [linesOf] at h
    split at h
    · cases h
    · obtain rfl := List.mem_singleton.1 h
      exact ⟨line, List.mem_singleton_self _, List.prefix_rfl⟩
  | first :: next :: rest, h => by
    change line ∈ dropReturn first :: linesOf (next :: rest) at h
    rcases List.mem_cons.1 h with rfl | h
    · refine ⟨first, List.mem_cons_self .., ?_⟩
      rw [dropReturn]
      split
      · exact List.dropLast_prefix first
      · exact List.prefix_rfl
    · obtain ⟨piece, hpiece, hline⟩ := exists_of_mem_linesOf h
      exact ⟨piece, List.mem_cons_of_mem _ hpiece, hline⟩

/-- Every line is a part of the text, and without a line feed. -/
theorem infix_of_mem_lines {line cs : List Char} (h : line ∈ lines cs) :
    line <:+: cs ∧ '\n' ∉ line := by
  obtain ⟨piece, hpiece, hline⟩ := exists_of_mem_linesOf h
  exact ⟨hline.isInfix.trans (infix_of_mem_splitAt hpiece), fun hn =>
    notMem_of_mem_splitAt hpiece (hline.subset hn)⟩

/-- What is dropped at the end. -/
theorem exists_append_dropEnd (p : Char → Bool) (cs : List Char) :
    ∃ rest, cs = dropEnd p cs ++ rest ∧ ∀ c ∈ rest, p c = true := by
  refine ⟨(cs.reverse.takeWhile p).reverse, ?_, fun c hc => ?_⟩
  · rw [dropEnd, ← List.reverse_append, List.takeWhile_append_dropWhile, List.reverse_reverse]
  · exact List.mem_takeWhile_imp (List.mem_reverse.1 hc)

theorem prefix_trimEnd (cs : List Char) : trimEnd cs <+: cs := List.rdropWhile_prefix isBlank cs

/-! ### Endings -/

theorem cutEnding?_eq_some {e s t : String} : cutEnding? e s = some t ↔ s = t ++ e := by
  rw [cutEnding?]
  constructor
  · intro h
    split at h
    next hs =>
      obtain ⟨cs, hcs⟩ := List.isSuffixOf_iff_suffix.1 hs
      cases h
      rw [← String.toList_inj, String.toList_append, String.toList_ofList, ← hcs,
        ← String.length_toList, ← String.length_toList, ← hcs, List.length_append,
        Nat.add_sub_cancel, List.take_left]
    next => cases h
  · rintro rfl
    rw [if_pos (List.isSuffixOf_iff_suffix.2 ⟨t.toList, by rw [String.toList_append]⟩)]
    rw [← String.length_toList, ← String.length_toList, String.toList_append, List.length_append,
      Nat.add_sub_cancel, List.take_left, String.ofList_toList]

theorem cutEnding?_eq_none {e s : String} : cutEnding? e s = none ↔ ¬ e.toList <:+ s.toList := by
  rw [cutEnding?]
  split
  next h => simpa using List.isSuffixOf_iff_suffix.1 h
  next h => simpa using fun hs => h (List.isSuffixOf_iff_suffix.2 hs)

end TypeGen.Text
