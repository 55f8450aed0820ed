import Mathlib.Data.List.Dedup
import Mathlib.Order.Bounds.Basic
import TypeGen.Proofs.Render.Variables

/-!
Searching. A new name is looked for number by number, and nothing ends the search but a name that is
free. The names that it rejects are all different, and they are all taken; so it rejects fewer numbers
than there are names, and ends.
-/

namespace TypeGen.Render

/-- The search that has come to the number `n` ends, and it ends with `v`. A name that is free is the one;
behind a name that is taken the next number is tried, and there is no last number. -/
inductive EndsFrom (taken : List String) (stem : String) : Nat → String → Prop
  | free {n : Nat} : stem ++ toString n ∉ taken → EndsFrom taken stem n (stem ++ toString n)
  | rejected {n : Nat} {v : String} : stem ++ toString n ∈ taken → EndsFrom taken stem (n + 1) v →
    EndsFrom taken stem n v

/-- The search for a name that is not taken ends, and it ends with `v`: with the stem, or else with a number
behind the stem. -/
inductive SearchEnds (taken : List String) (stem : String) : String → Prop
  | stem : stem ∉ taken → SearchEnds taken stem stem
  | numbered {v : String} : stem ∈ taken → EndsFrom taken stem 0 v → SearchEnds taken stem v

variable {taken : List String} {stem v w : String} {m n : Nat}

/-! ### Rounds -/

/-- The numbers below `n` have been tried in vain. -/
def Rejected (taken : List String) (stem : String) (n : Nat) : Prop :=
  ∀ k < n, stem ++ toString k ∈ taken

theorem Rejected.succ (h : Rejected taken stem n) (hn : stem ++ toString n ∈ taken) :
    Rejected taken stem (n + 1) := by
  intro k hk
  rcases Nat.lt_succ_iff_lt_or_eq.1 hk with hlt | rfl
  · exact h k hlt
  · exact hn

/-- Wherever the search ends, it has tried all smaller numbers in vain. -/
theorem EndsFrom.exists_rejected (h : EndsFrom taken stem n v) : Rejected taken stem n →
    ∃ m, v = stem ++ toString m ∧ stem ++ toString m ∉ taken ∧ Rejected taken stem m := by
  induction h with
  | free hfree => exact fun hn => ⟨_, rfl, hfree, hn⟩
  | rejected hmem _ ih => exact fun hn => ih (hn.succ hmem)

/-- From every number that is tried in vain the search comes to the first that is not. -/
theorem Rejected.endsFrom (h : Rejected taken stem n) (hfree : stem ++ toString n ∉ taken)
    (hm : m ≤ n) : EndsFrom taken stem m (stem ++ toString n) := by
  induction hm using Nat.decreasingInduction with
  | self => exact .free hfree
  | of_succ k hk ih => exact .rejected (h k hk) ih

theorem Rejected.isLeast (h : Rejected taken stem n) (hfree : stem ++ toString n ∉ taken) :
    IsLeast {k : Nat | stem ++ toString k ∉ taken} n :=
  ⟨hfree, fun k hk => not_lt.1 fun hlt => hk (h k hlt)⟩

/-! ### The end of the search -/

theorem IsFirstFree.eq_stem (h : IsFirstFree taken stem v) (hstem : stem ∉ taken) : v = stem :=
  h.2.resolve_right fun hnumbered => hstem hnumbered.1

theorem IsFirstFree.exists_rejected (h : IsFirstFree taken stem v) (hstem : stem ∈ taken) :
    ∃ n, v = stem ++ toString n ∧ stem ++ toString n ∉ taken ∧ Rejected taken stem n := by
  obtain ⟨hfree, rfl | ⟨-, n, rfl, hrejected⟩⟩ := h
  · exact absurd hstem hfree
  · exact ⟨n, rfl, hfree, hrejected⟩

theorem IsFirstFree.unique (hv : IsFirstFree taken stem v) (hw : IsFirstFree taken stem w) : v = w := by
  by_cases hstem : stem ∈ taken
  · obtain ⟨m, rfl, hm, hbelow⟩ := hv.exists_rejected hstem
    obtain ⟨n, rfl, hn, hbelow'⟩ := hw.exists_rejected hstem
    rw [(hbelow.isLeast hm).unique (hbelow'.isLeast hn)]
  · rw [hv.eq_stem hstem, hw.eq_stem hstem]

/-- The search ends with the first free name and with no other. -/
theorem searchEnds_iff : SearchEnds taken stem v ↔ IsFirstFree taken stem v := by
  constructor
  · intro h
    cases h with
    | stem hstem => exact ⟨hstem, .inl rfl⟩
    | numbered hstem hfrom =>
      obtain ⟨n, rfl, hfree, hrejected⟩ := hfrom.exists_rejected (by simp [Rejected])
      exact ⟨hfree, .inr ⟨hstem, n, rfl, hrejected⟩⟩
  · intro h
    by_cases hstem : stem ∈ taken
    · obtain ⟨n, rfl, hfree, hrejected⟩ := h.exists_rejected hstem
      exact .numbered hstem (hrejected.endsFrom hfree n.zero_le)
    · rw [h.eq_stem hstem]
      exact .stem hstem

/-- Fewer numbers are tried in vain than there are different names: the stem is one of them. -/
theorem Rejected.lt_length (h : Rejected taken stem n) (hstem : stem ∈ taken) :
    n < taken.dedup.length := by
  -- Without the stem there are still all the names that the numbers make.
  obtain ⟨i, hi, hfree⟩ := exists_numbered_notMem (taken.dedup.erase stem) stem
  have hlength := List.length_erase_add_one (List.mem_dedup.2 hstem)
  rw [List.mem_range, hlength] at hi
  by_contra hn
  have hmem : stem ++ toString i ∈ taken := h i (by omega)
  exact hfree ((List.mem_erase_of_ne (by simp)).2 (List.mem_dedup.2 hmem))

/-- However many names are taken, the search ends, and it ends with the variable that is chosen and with no
other. That is new: it is the stem, or where the stem is taken, the stem with the least number, in decimal
digits, that makes it new. The number is less than there are different names. -/
theorem search_ends (params : List String) (stem : String) :
    (∀ v, SearchEnds params stem v ↔ v = freshVariable params stem) ∧
    freshVariable params stem ∉ params ∧
    (stem ∉ params → freshVariable params stem = stem) ∧
    (stem ∈ params → ∃ n, freshVariable params stem = stem ++ toString n ∧
      IsLeast {k : Nat | stem ++ toString k ∉ params} n ∧ n < params.dedup.length) := by
  have hfirst := isFirstFree_freshVariable params stem
  refine ⟨fun v => ?_, hfirst.1, hfirst.eq_stem, fun hstem => ?_⟩
  · rw [searchEnds_iff]
    exact ⟨fun hv => hv.unique hfirst, fun hv => hv ▸ hfirst⟩
  · obtain ⟨n, hn, hfree, hrejected⟩ := hfirst.exists_rejected hstem
    exact ⟨n, hn, hrejected.isLeast hfree, hrejected.lt_length hstem⟩

example : freshVariable ["T", "T0", "T1", "T0", "T10"] "T" = "T2" := by decide

end TypeGen.Render
