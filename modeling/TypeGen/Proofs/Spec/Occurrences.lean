import Mathlib.Data.List.Induction
import TypeGen.Spec.Include

/-!
Occurrences of includes. A list of includes holds the first occurrence of everything that was put into it,
in the order in which it was put there.
-/

namespace TypeGen.Spec

/-- What is added at the end counts if it has not occurred. -/
theorem eraseDups_concat (is : List Include) (i : Include) :
    (is ++ [i]).eraseDups = if i ∈ is then is.eraseDups else is.eraseDups ++ [i] := by
  rw [List.eraseDups_append, List.removeAll]
  split
  next h => simp [h]
  next h => simp [h, List.eraseDups_cons]

theorem eraseDups_of_nodup {is : List Include} (h : is.Nodup) : is.eraseDups = is := by
  induction is using List.reverseRecOn with
  | nil => rfl
  | append_singleton is i ih =>
    obtain ⟨his, -, hi⟩ := List.nodup_append.1 h
    have hnew : i ∉ is := fun hmem => hi i hmem i (List.mem_singleton_self i) rfl
    rw [eraseDups_concat, if_neg hnew, ih his]

namespace IncludeList

theorem toList_add (l : IncludeList) (i : Include) :
    (l.add i).toList = if i ∈ l.toList then l.toList else l.toList ++ [i] := by
  rw [add]
  split <;> rfl

theorem extend_extend (l : IncludeList) (is js : List Include) :
    (l.extend is).extend js = l.extend (is ++ js) := List.foldl_append.symm

theorem toList_extend (l : IncludeList) (is : List Include) :
    (l.extend is).toList = (l.toList ++ is).eraseDups := by
  induction is using List.reverseRecOn with
  | nil => rw [List.append_nil, eraseDups_of_nodup l.nodup]; rfl
  | append_singleton is i ih =>
    have hstep : (l.extend (is ++ [i])) = (l.extend is).add i := List.foldl_append
    rw [hstep, toList_add, ih, ← List.append_assoc, eraseDups_concat]
    simp only [List.mem_eraseDups]

theorem toList_ofList (is : List Include) : (ofList is).toList = is.eraseDups :=
  toList_extend empty is

end IncludeList

/-- Local and system includes are written differently, and so are different paths. -/
theorem Include.directive_injective {i j : Include} (h : i.directive = j.directive) : i = j := by
  obtain ⟨path, system⟩ := i
  obtain ⟨path', system'⟩ := j
  rw [← String.toList_inj] at h
  have hpath : path.toList = path'.toList ∧ system = system' := by
    cases system <;> cases system' <;> simp_all [directive]
  rw [String.toList_inj.1 hpath.1, hpath.2]

end TypeGen.Spec
