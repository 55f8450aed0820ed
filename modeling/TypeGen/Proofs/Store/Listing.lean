import TypeGen.Proofs.Store.Visiting

/-!
What a walk lists. Where whatever is inside of a skipped entry is to be skipped too, a walk that
leaves entries out on its way lists what one that enters everything lists when its files are sorted
out afterwards. The latter are told by the names that lead to them from where the walk starts, and
these strictly increase.
-/

namespace TypeGen.Store

open FilePath

/-! ### Paths that can be followed -/

/-- A path that can be followed to what is in a directory can be followed to the directory. -/
theorem isPath_of_child {p : FilePath} {name : String} (hname : IsPlain name)
    (h : isPath (p.child name) = true) : isPath p = true := by
  rw [child, join, ofString_of_isPlain hname, if_neg Bool.false_ne_true] at h
  split at h
  next hopen =>
    rw [if_neg (by simp)] at h
    cases hlast : p.pieces.getLast? with
    | none =>
      have hroot : p.rooted = true := by simpa [endsOpen, hlast] using hopen
      rw [show p = ⟨true, []⟩ from congrArg₂ FilePath.mk hroot (List.getLast?_eq_none_iff.1 hlast)]
      decide
    | some last =>
      -- the name takes the place of an empty piece
      obtain rfl : last = "" := by simpa [endsOpen, hlast] using hopen
      obtain ⟨init, hinit⟩ := List.getLast?_eq_some_iff.1 hlast
      rw [isPath, Bool.and_eq_true, decide_eq_true_eq, Bool.not_eq_true', text,
        String.utf8ByteSize_append, utf8ByteSize_joinWith, hinit] at h ⊢
      simp only [List.dropLast_concat, List.map_append, List.sum_append, List.map_cons, List.map_nil,
        List.sum_singleton, List.length_append, List.length_singleton, List.any_append,
        Bool.or_eq_false_iff] at h ⊢
      exact ⟨by simp; omega, h.2.1, by simp⟩
  next hclosed =>
    split at h
    next hempty =>
      have hpieces : p.pieces = [] := List.isEmpty_iff.1 hempty
      have hroot : p.rooted = false := by simpa [endsOpen, hpieces] using hclosed
      rw [show p = FilePath.empty from congrArg₂ FilePath.mk hroot hpieces]
      decide
    next => exact isPath_of_sublist (p := ⟨p.rooted, p.pieces ++ [name]⟩) rfl (List.sublist_append_left ..) h

theorem under_append (p : FilePath) (names rest : Place) :
    p.under (names ++ rest) = (p.under names).under rest := List.foldl_append

theorem isPath_of_under : ∀ {names : Place} {p : FilePath}, (∀ name ∈ names, IsPlain name) →
    isPath (p.under names) = true → isPath p = true
  | [], _, _, h => h
  | name :: _, _, hplain, h => isPath_of_child (hplain name (List.mem_cons_self ..))
      (isPath_of_under (fun n hn => hplain n (List.mem_cons_of_mem _ hn)) h)

namespace Disk

variable {d : Disk} {skip : FilePath → Bool} {p : FilePath} {top names : Place}

/-! ### Leaving out on the way or afterwards -/

/-- Whatever is inside of an entry that is skipped is to be skipped as well. -/
def SkipsInside (d : Disk) (skip : FilePath → Bool) (p : FilePath) (top : Place) : Prop :=
  ∀ names rest e, d.tree.get? (top ++ (names ++ rest)) = some e → names ≠ [] →
    skip (p.under names) = true → skip (p.under (names ++ rest)) = true

/-- Leaving entries out on the way is sorting out the files afterwards: both ways come to the same
names, and these increase. -/
theorem namesBelow_eq_filter (h : d.SkipsInside skip p top) : d.namesBelow skip p top =
    (d.namesBelow (fun _ => false) p top).filter (fun names => !skip (p.under names)) := by
  have hvisits : ∀ {names c}, d.tree.get? (top ++ names) = some (.file c) →
      (Visits skip p names ↔ Visits (fun _ => false) p names ∧ skip (p.under names) = false) := by
    intro names c hc
    refine ⟨fun hv => ⟨⟨hv.ne_nil, fun _ _ _ => rfl, hv.followed⟩,
      hv.entered names hv.ne_nil List.prefix_rfl⟩, fun ⟨hv, hskip⟩ =>
        ⟨hv.ne_nil, fun inner hne ⟨rest, hrest⟩ => ?_, hv.followed⟩⟩
    subst hrest
    by_contra hinner
    rw [Bool.not_eq_false] at hinner
    rw [h inner rest _ hc hne hinner] at hskip
    cases hskip
  refine List.Pairwise.eq_of_mem_iff (d.pairwise_namesBelow skip p top)
    ((d.pairwise_namesBelow _ p top).filter _) fun names => ?_
  rw [List.mem_filter, mem_namesBelow, mem_namesBelow, Bool.not_eq_true', and_assoc]
  exact and_congr_right fun ⟨c, hc⟩ => hvisits hc

theorem filesBelow_eq_filter (h : d.SkipsInside skip p top) :
    d.filesBelow skip p top = (d.filesBelow (fun _ => false) p top).filter (!skip ·) := by
  rw [filesBelow_eq_map, filesBelow_eq_map, namesBelow_eq_filter h, List.filter_map]
  rfl

/-! ### Walks -/

/-- Where a walk starts. Of all links it follows only the one that it may start at, and that only to
a directory. -/
inductive Starts (d : Disk) (p : FilePath) : Place → Prop
  | file {place : Place} {c : Content} : d.locate false p = .found place (.file c) → d.Starts p place
  | directory {place : Place} : d.locate false p = .found place .directory → d.Starts p place
  | link {place link : Place} {target : FilePath} : d.locate false p = .found link (.link target) →
      d.locate true p = .found place .directory → d.Starts p place

/-- A file that names lead to from where a walk starts, by nothing but directories. -/
def Holds (d : Disk) (p : FilePath) (names : Place) : Prop :=
  ∃ top, d.Starts p top ∧ ∃ c, d.tree.get? (top ++ names) = some (.file c)

theorem holds_iff (h : ∀ place, d.Starts p place ↔ place = top) {names : Place} :
    d.Holds p names ↔ ∃ c, d.tree.get? (top ++ names) = some (.file c) :=
  ⟨fun ⟨place, hs, hc⟩ => (h place).1 hs ▸ hc, fun hc => ⟨top, (h top).2 rfl, hc⟩⟩

/-- A walk that enters everything visits what is in directories whose paths can be followed, if the
last of these paths can be. -/
theorem visits_iff_isPath (hplain : ∀ name ∈ names, IsPlain name) (hne : names ≠ []) :
    Visits (fun _ => false) p names ↔ isPath (p.under names.dropLast) = true := by
  refine ⟨fun hv => hv.followed _ List.prefix_rfl, fun h => ⟨hne, fun _ _ _ => rfl, ?_⟩⟩
  rintro inner ⟨rest, hrest⟩
  rw [← hrest, under_append] at h
  refine isPath_of_under (fun name hname => hplain name (List.dropLast_subset _ ?_)) h
  rw [← hrest]
  exact List.mem_append_right _ hname

theorem exists_names_filesBelow (ht : d.tree.HasPlainNames)
    (htop : d.tree.get? top = some .directory) (hstart : ∀ place, d.Starts p place ↔ place = top) :
    ∃ ns : List Place, ns.Pairwise (· < ·) ∧ d.filesBelow (fun _ => false) p top = ns.map p.under ∧
      ∀ names, names ∈ ns ↔ d.Holds p names ∧ isPath (p.under names.dropLast) = true := by
  refine ⟨_, d.pairwise_namesBelow _ p top, filesBelow_eq_map, fun names => ?_⟩
  rw [mem_namesBelow, holds_iff hstart]
  refine and_congr_right fun ⟨c, hc⟩ => visits_iff_isPath (fun name hname =>
    ht _ _ hc name (List.mem_append_right _ hname)) fun h0 => ?_
  rw [h0, List.append_nil, htop] at hc
  cases hc

/-- A walk that enters everything lists each file once, in the order of the names that lead to it. -/
theorem exists_names_files (ht : d.tree.HasPlainNames) (p : FilePath) : ∃ ns : List Place,
    ns.Pairwise (· < ·) ∧ d.files (fun _ => false) p = ns.map p.under ∧
      ∀ names, names ∈ ns ↔ d.Holds p names ∧ isPath (p.under names.dropLast) = true := by
  have hget : ∀ {through : Bool} {top : Place} {e : Entry}, d.locate through p = .found top e →
      d.tree.get? top = some e := fun {through top e} hloc => by
    simpa [hloc, Spot.Agrees] using d.locate_agrees through p
  rw [files]
  split
  next top c hloc =>
    have hstart : ∀ place, d.Starts p place ↔ place = top := fun place => by
      refine ⟨fun h => ?_, fun h => h ▸ .file hloc⟩
      cases h <;> simp_all
    refine ⟨[[]], List.pairwise_singleton .., rfl, fun names => ?_⟩
    rw [List.mem_singleton, holds_iff hstart]
    constructor
    · rintro rfl
      exact ⟨⟨c, by rw [List.append_nil, hget hloc]⟩, isPath_of_locate hloc⟩
    · rintro ⟨⟨c', hc'⟩, -⟩
      -- nothing is inside of a file
      rcases FileTree.get?_above (List.prefix_append top names) (by rw [hc']; rfl) with h | h
      · exact List.append_right_eq_self.1 h.symm
      · rw [hget hloc] at h; cases h
  next top hloc =>
    refine exists_names_filesBelow ht (hget hloc) fun place => ⟨fun h => ?_, fun h => h ▸ .directory hloc⟩
    cases h <;> simp_all
  next link target hlink =>
    split
    next top hloc =>
      refine exists_names_filesBelow ht (hget hloc) fun place => ⟨fun h => ?_, fun h => h ▸ .link hlink hloc⟩
      cases h <;> simp_all
    next hno =>
      refine ⟨[], .nil, rfl, fun names => ?_⟩
      rw [List.mem_nil_iff, false_iff]
      rintro ⟨⟨place, hs, -⟩, -⟩
      cases hs <;> simp_all
  next hfile hdir hlink =>
    refine ⟨[], .nil, rfl, fun names => ?_⟩
    rw [List.mem_nil_iff, false_iff]
    rintro ⟨⟨place, hs, -⟩, -⟩
    cases hs <;> simp_all

/-- Leaving out on the way is sorting out afterwards, for walks that do not skip their start. -/
theorem files_eq_filter (hp : skip p = false) (h : ∀ top, d.SkipsInside skip p top) :
    d.files skip p = (d.files (fun _ => false) p).filter (!skip ·) := by
  rw [files, files]
  simp only [hp, Bool.false_eq_true, if_false]
  split
  · simp [hp]
  · exact filesBelow_eq_filter (h _)
  · split
    · exact filesBelow_eq_filter (h _)
    · rfl
  · rfl

end Disk

end TypeGen.Store
