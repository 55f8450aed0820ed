import TypeGen.Proofs.Code.Annotating
import TypeGen.Proofs.Spec.Occurrences

/-!
Collecting includes. However a list of includes is built, by adding, extending and merging lists that
are built in the same ways, it holds the first occurrences of all that was put in, in order. On a page
it is one line for each of them.
-/

namespace TypeGen.Spec

/-! ### First occurrences -/

theorem eraseDups_append_eraseDups (is js : List Include) :
    (is ++ js.eraseDups).eraseDups = (is ++ js).eraseDups := by
  induction js using List.reverseRecOn with
  | nil => rfl
  | append_singleton js j ih =>
    have hall : (is ++ (js ++ [j])).eraseDups =
        if j ∈ is ++ js then (is ++ js).eraseDups else (is ++ js).eraseDups ++ [j] := by
      rw [← List.append_assoc, eraseDups_concat]
    rw [hall, eraseDups_concat]
    by_cases hj : j ∈ js
    · rw [if_pos hj, ih, if_pos (List.mem_append_right _ hj)]
    · rw [if_neg hj, ← List.append_assoc, eraseDups_concat, ih]
      simp only [List.mem_append, List.mem_eraseDups]

namespace IncludeList

theorem eraseDups_append (is js : List Include) :
    (is.eraseDups ++ js).eraseDups = (is ++ js).eraseDups := by
  have hextend := toList_extend (ofList is) js
  rw [toList_ofList, ofList, extend_extend] at hextend
  rw [← hextend, ← toList_ofList, ofList]

theorem ext_toList {l l' : IncludeList} (h : l.toList = l'.toList) : l = l' := by
  cases l; cases l'; cases h; rfl

theorem mem_contains (l : IncludeList) (i : Include) : l.contains i = decide (i ∈ l.toList) :=
  List.contains_eq_mem i l.toList

/-! ### Merging -/

theorem toList_merge (l other : IncludeList) :
    (l.merge other).toList = (l.toList ++ other.toList).eraseDups := toList_extend l other.toList

theorem merge_assoc (l other more : IncludeList) :
    (l.merge other).merge more = l.merge (other.merge more) := by
  refine ext_toList ?_
  rw [toList_merge, toList_merge, toList_merge, toList_merge, eraseDups_append,
    eraseDups_append_eraseDups, List.append_assoc]

/-- What is there already is not put in again. -/
theorem merge_of_contained {l other : IncludeList} (h : ∀ i ∈ other.toList, i ∈ l.toList) :
    l.merge other = l := by
  refine ext_toList ?_
  rw [toList_merge]
  generalize other.toList = is at h
  induction is using List.reverseRecOn with
  | nil => rw [List.append_nil, eraseDups_of_nodup l.nodup]
  | append_singleton is i ih =>
    have hi : i ∈ l.toList := h i (by simp)
    rw [← List.append_assoc, eraseDups_concat, if_pos (List.mem_append_left _ hi)]
    exact ih fun j hj => h j (List.mem_append_left _ hj)

/-! ### Calls -/

/-- What can be done to a list. -/
inductive Call where
  | add (i : Include)
  | extend (is : List Include)
  /-- Another list is built from nothing, and is merged into this one. -/
  | merge (others : List Call)

mutual

def Call.run : Call → IncludeList → IncludeList
  | .add i, l => (l.insertNew i).1
  | .extend is, l => l.extend is
  | .merge others, l => l.merge (runCalls others empty)

def runCalls : List Call → IncludeList → IncludeList
  | [], l => l
  | c :: rest, l => runCalls rest (c.run l)

end

mutual

/-- All that a call puts in, also by way of other lists. -/
def Call.passed : Call → List Include
  | .add i => [i]
  | .extend is => is
  | .merge others => passedBy others

def passedBy : List Call → List Include
  | [] => []
  | c :: rest => c.passed ++ passedBy rest

end

/-- The list that calls build from nothing. -/
def collected (calls : List Call) : IncludeList := runCalls calls empty

mutual

theorem Call.toList_run : ∀ (c : Call) (l : IncludeList),
    (c.run l).toList = (l.toList ++ c.passed).eraseDups
  | .add i, l => toList_extend l [i]
  | .extend is, l => toList_extend l is
  | .merge others, l => by
    rw [Call.run, Call.passed, toList_merge, toList_runCalls others empty, eraseDups_append_eraseDups]
    rfl

theorem toList_runCalls : ∀ (calls : List Call) (l : IncludeList),
    (runCalls calls l).toList = (l.toList ++ passedBy calls).eraseDups
  | [], l => by rw [passedBy, List.append_nil, eraseDups_of_nodup l.nodup]; rfl
  | c :: rest, l => by
    rw [runCalls, passedBy, toList_runCalls rest, Call.toList_run c l, eraseDups_append,
      List.append_assoc]

end

theorem toList_collected (calls : List Call) : (collected calls).toList = (passedBy calls).eraseDups :=
  toList_runCalls calls empty

theorem runCalls_append (xs ys : List Call) (l : IncludeList) :
    runCalls (xs ++ ys) l = runCalls ys (runCalls xs l) := by
  induction xs generalizing l with
  | nil => rfl
  | cons c xs ih => exact ih (c.run l)

end IncludeList

end TypeGen.Spec

namespace TypeGen.Code

open TypeGen.Spec

/-! ### Lines on a page -/

/-- Counts where lines end. -/
def lineEnds : Reader Nat where
  step n c := some (if c = '\n' then n + 1 else n)
  margin := by
    rintro n n' - c (rfl | rfl) <;> rfl

theorem lineEnds_fits (p : Page) (n : Nat) : lineEnds.Fits p n := by
  rintro - c (rfl | rfl) <;> rfl

theorem read_lineEnds (n : Nat) (cs : List Char) : lineEnds.read n cs = some (n + cs.count '\n') := by
  induction cs generalizing n with
  | nil => rfl
  | cons c cs ih =>
    rw [Reader.read_cons, lineEnds, Option.bind_some, ← lineEnds, ih, List.count_cons]
    by_cases hc : c = '\n' <;> simp [hc]
    omega

/-! ### Includes on a page -/

theorem count_directive (i : Include) : i.directive.toList.count '\n' = i.path.toList.count '\n' := by
  rw [Include.directive]
  split <;> simp [List.count_append]

theorem toList_directive_ne_nil (i : Include) : i.directive.toList ≠ [] := by
  rw [Include.directive]
  split <;> simp

/-- Includes are written one after another, each as a line of its own. -/
theorem run_includes (l : IncludeList) (p : Page) : (Step.includes l).run p =
    (l.toList.foldl (fun q i => ((Step.line i.directive).run q).1) p, .done) := by
  have hlines : ∀ (is : List Include) (p : Page),
      runAll (strokesOfLines (is.map Include.directive)) p =
        (is.foldl (fun q i => ((Step.line i.directive).run q).1) p, .done) := by
    intro is
    induction is with
    | nil => exact fun _ => rfl
    | cons i is ih =>
      intro p
      have hfirst : runAll (strokesOfLine i.directive) p = (((Step.line i.directive).run p).1, .done) :=
        rfl
      rw [List.map_cons, strokesOfLines, List.flatMap_cons, runAll_append hfirst]
      exact ih _
  exact hlines l.toList p

/-- A line ends behind each include; more lines than that end where paths have line feeds. -/
theorem follows_directives : ∀ (is : List Include) (p : Page) (n : Nat),
    lineEnds.Follows p n (is.foldl (fun q i => ((Step.line i.directive).run q).1) p)
      (n + (is.length + (is.flatMap (·.path.toList)).count '\n'))
  | [], p, n => .refl (lineEnds_fits p n)
  | i :: is, p, n => by
    have hline : lineEnds.Follows p n (p.write i.directive).newline
        (n + i.path.toList.count '\n' + 1) := by
      refine Reader.follows_line (lineEnds_fits p n) (read_lineEnds n _) ?_
      rw [count_directive]; rfl
    have hrest := follows_directives is (p.write i.directive).newline
      (n + i.path.toList.count '\n' + 1)
    have hcount : n + i.path.toList.count '\n' + 1 +
        (is.length + (is.flatMap (·.path.toList)).count '\n') =
        n + ((i :: is).length + ((i :: is).flatMap (·.path.toList)).count '\n') := by
      rw [List.length_cons, List.flatMap_cons, List.count_append]
      omega
    exact hcount ▸ hline.trans hrest

theorem exists_added_includes (l : IncludeList) (p : Page) :
    ∃ added, ((Step.includes l).run p).1.text = p.text ++ added ∧
      added.toList.count '\n' = l.size + (l.toList.flatMap (·.path.toList)).count '\n' := by
  obtain ⟨added, htext, hread⟩ := (follows_directives l.toList p 0).added
  rw [read_lineEnds, Nat.zero_add, Nat.zero_add] at hread
  exact ⟨added, run_includes l p ▸ htext, Option.some.inj hread⟩

theorem run_includes_addLine {l : IncludeList} (h : ∀ i ∈ l.toList, '\n' ∉ i.path.toList) (p : Page) :
    (Step.includes l).run p = (l.directives.foldl Page.addLine p, .done) := by
  refine runAll_addLine (List.forall_mem_map.2 fun i hi => ⟨?_, toList_directive_ne_nil i⟩) p
  rw [← List.count_eq_zero, count_directive]
  exact List.count_eq_zero.2 (h i hi)

/-- A list that is built by calls holds the first occurrences of what the calls put in. It contains those
and no others, and an include is new to it exactly if it was never put in. On a page it is one line for
each of them, in which no line feed stands but at the end and where a path has one. To merge is
associative, and what is contained already makes no difference. -/
theorem collected_first_occurrences (calls others more : List IncludeList.Call) :
    let l := IncludeList.collected calls
    let passed := IncludeList.passedBy calls
    l.toList = passed.eraseDups ∧
    (∀ i, l.contains i = decide (i ∈ passed)) ∧
    l.size = passed.eraseDups.length ∧
    (∀ i, l.insertNew i = (IncludeList.collected (calls ++ [.add i]), decide (i ∉ passed))) ∧
    (∀ p : Page, (Step.includes l).run p =
      (passed.eraseDups.foldl (fun q i => ((Step.line i.directive).run q).1) p, .done)) ∧
    (∀ p : Page, ∃ added, ((Step.includes l).run p).1.text = p.text ++ added ∧
      added.toList.count '\n' = l.size + (l.toList.flatMap (·.path.toList)).count '\n') ∧
    (∀ p : Page, (∀ i ∈ passed, '\n' ∉ i.path.toList) →
      (Step.includes l).run p =
        ((passed.eraseDups.map Include.directive).foldl Page.addLine p, .done)) ∧
    (l.merge (.collected others)).merge (.collected more) =
      l.merge ((IncludeList.collected others).merge (.collected more)) ∧
    ((∀ i ∈ (IncludeList.collected others).toList, i ∈ l.toList) →
      l.merge (.collected others) = l) := by
  intro l passed
  have hlist : l.toList = passed.eraseDups := IncludeList.toList_collected calls
  have hcontains : ∀ i, l.contains i = decide (i ∈ passed) := fun i => by
    rw [IncludeList.mem_contains, hlist]
    simp only [List.mem_eraseDups]
  refine ⟨hlist, hcontains, by rw [IncludeList.size, hlist], fun i => ?_,
    fun p => by rw [run_includes, hlist], exists_added_includes l, fun p hpaths => ?_,
    IncludeList.merge_assoc .., IncludeList.merge_of_contained⟩
  · have hnext : IncludeList.collected (calls ++ [.add i]) = l.add i :=
      IncludeList.runCalls_append calls [.add i] .empty
    rw [IncludeList.insertNew, hnext, hcontains, decide_not]
  · rw [run_includes_addLine (fun i hi => hpaths i (List.mem_eraseDups.1 (hlist ▸ hi))) p,
      IncludeList.directives, hlist]

/-- Two includes of one path, put in again and again, also by way of a list within a list. -/
def nestedCalls : List IncludeList.Call :=
  [.add ⟨"set", true⟩, .extend [⟨"set", false⟩, ⟨"set", true⟩],
    .merge [.add ⟨"map", true⟩, .merge [.add ⟨"set", false⟩]]]

theorem collected_first_occurrences_nested :
    (IncludeList.collected nestedCalls).toList = [⟨"set", true⟩, ⟨"set", false⟩, ⟨"map", true⟩] ∧
    ((Step.includes (.collected nestedCalls)).run (Page.blank Indent.default)).1.text =
      "#include <set>\n#include \"set\"\n#include <map>\n" ∧
    (IncludeList.collected nestedCalls).merge (.collected [.add ⟨"set", false⟩]) =
      .collected nestedCalls := by
  obtain ⟨hlist, -, -, -, -, -, hpage, -, hmerge⟩ :=
    collected_first_occurrences nestedCalls [.add ⟨"set", false⟩] []
  refine ⟨hlist.trans (by decide), ?_, hmerge (by decide)⟩
  rw [hpage (Page.blank Indent.default) (by decide)]
  decide

end TypeGen.Code
