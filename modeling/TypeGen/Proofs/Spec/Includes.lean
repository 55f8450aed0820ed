import Mathlib.Data.List.Basic
import TypeGen.Spec.Include

/-!
Includes as a spec writes them. A text stands for an include when it is, blanks around it aside, the
path as it is or in angle brackets; it stands for one at most, and for that the reader takes it.
-/

namespace TypeGen.Spec.Include

open TypeGen.Text

/-- A text that stands for an include. -/
structure IsSpelling (s : String) (i : Include) : Prop where
  written : trim s.toList = i.written.toList
  nonempty : i.path ≠ ""
  clean : ∀ c ∈ i.path.toList, isForbidden c = false

theorem ofPath?_eq_some {system : Bool} {path : List Char} {i : Include} :
    ofPath? system path = some i ↔
      i = ⟨String.ofList path, system⟩ ∧ path ≠ [] ∧ ∀ c ∈ path, isForbidden c = false := by
  have hfits : (path.isEmpty || path.any isForbidden) = false ↔
      path ≠ [] ∧ ∀ c ∈ path, isForbidden c = false := by simp
  rw [← hfits, ofPath?]
  cases path.isEmpty || path.any isForbidden with
  | true => simp
  | false => simp [eq_comm]

theorem toList_written (i : Include) : i.written.toList =
    if i.system then '<' :: (i.path.toList ++ ['>']) else i.path.toList := by
  rw [written]
  split <;> simp [String.toList_append]

/-- What is read is an include that the text stands for. -/
theorem isSpelling_of_parse? {s : String} {i : Include} (h : parse? s = some i) : IsSpelling s i := by
  rw [parse?] at h
  split at h
  next rest hs =>
    split at h
    next hlast =>
      obtain ⟨rfl, hne, hclean⟩ := ofPath?_eq_some.1 h
      have hrest : rest.dropLast ++ ['>'] = rest := List.dropLast_append_getLast? _ hlast
      refine ⟨?_, by simpa using hne, by simpa using hclean⟩
      rw [hs, toList_written]
      simp [hrest]
    next => cases h
  next hs _ =>
    split at h
    next => cases h
    next =>
      obtain ⟨rfl, hne, hclean⟩ := ofPath?_eq_some.1 h
      refine ⟨?_, by simpa using hne, by simpa using hclean⟩
      rw [toList_written]
      simp

/-- What a text stands for is read from it: no path starts or ends with an angle bracket. -/
theorem IsSpelling.parse? {s : String} {i : Include} (h : IsSpelling s i) :
    Include.parse? s = some i := by
  obtain ⟨path, system⟩ := i
  have hne : path.toList ≠ [] := by simpa using h.nonempty
  have hpath : ofPath? system path.toList = some ⟨path, system⟩ :=
    ofPath?_eq_some.2 ⟨by simp, hne, h.clean⟩
  have hclean : ∀ c, c = '<' ∨ c = '>' → c ∉ path.toList := by
    intro c hc hmem
    have hforbidden := h.clean c hmem
    rcases hc with rfl | rfl <;> simp [isForbidden] at hforbidden
  rw [Include.parse?, h.written, toList_written]
  cases system with
  | true => simp [hpath]
  | false =>
    simp only [Bool.false_eq_true, if_false]
    split
    next rest hs => exact absurd (hs ▸ List.mem_cons_self ..) (hclean '<' (.inl rfl))
    next =>
      rw [if_neg, hpath]
      intro hlast
      exact hclean '>' (.inr rfl) (List.mem_of_getLast? hlast)

theorem parse?_eq_some {s : String} {i : Include} : parse? s = some i ↔ IsSpelling s i :=
  ⟨isSpelling_of_parse?, IsSpelling.parse?⟩

/-- Texts that stand for an include. -/
def IsWellFormed (s : String) : Prop := ∃ i, IsSpelling s i

theorem isWellFormed_iff {s : String} : IsWellFormed s ↔ (parse? s).isSome = true := by
  rw [Option.isSome_iff_exists]
  simp only [parse?_eq_some, IsWellFormed]

instance (s : String) : Decidable (IsWellFormed s) := decidable_of_iff _ isWellFormed_iff.symm

end TypeGen.Spec.Include
