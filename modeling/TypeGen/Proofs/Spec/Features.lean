import Mathlib.Data.List.Nodup
import Mathlib.Data.List.Perm.Basic
import TypeGen.Spec.Feature

/-!
Features of a spec. A set of features is known by its members: it lists them in emission order, however
they were put in.
-/

namespace TypeGen.Spec

theorem IsOrdered.nodup {fs : List Feature} (h : IsOrdered fs) : fs.Nodup := by
  have hranks : fs.Pairwise (·.rank < ·.rank) := h
  exact hranks.imp fun {f g} hlt (heq : f = g) => Nat.lt_irrefl _ (heq ▸ hlt)

theorem Feature.mem_all (f : Feature) : f ∈ Feature.all := by cases f <;> decide

/-- Every token names the feature that it is the token of, and no other. -/
theorem Feature.ofToken?_eq_some {s : String} {f : Feature} : ofToken? s = some f ↔ f.token = s := by
  constructor
  · intro h
    simpa using List.find?_some h
  · rintro rfl
    cases f <;> decide

/-- Of two ordered lists with the same members there is one. -/
theorem IsOrdered.ext {fs gs : List Feature} (hf : IsOrdered fs) (hg : IsOrdered gs)
    (h : ∀ f, f ∈ fs ↔ f ∈ gs) : fs = gs :=
  List.Perm.eq_of_pairwise (fun _ _ _ _ hfg hgf => absurd hfg (Nat.lt_asymm hgf)) hf hg
    ((List.perm_ext_iff_of_nodup hf.nodup hg.nodup).2 h)

theorem isOrdered_filter_all (p : Feature → Bool) : IsOrdered (Feature.all.filter p) := by
  have hall : IsOrdered Feature.all := by unfold IsOrdered; decide
  exact List.Pairwise.filter p hall

namespace FeatureSet

/-- The members of a set, in the order in which all features are listed. -/
theorem toList_eq_filter (s : FeatureSet) : s.toList = Feature.all.filter s.contains :=
  s.ordered.ext (isOrdered_filter_all _) fun f => by simp [Feature.mem_all, contains]

theorem mem_insert {f g : Feature} {s : FeatureSet} :
    g ∈ (s.insert f).toList ↔ g = f ∨ g ∈ s.toList := mem_place

theorem mem_foldl_insert {f : Feature} : ∀ {declared : List Feature} {s : FeatureSet},
    f ∈ (declared.foldl insert s).toList ↔ f ∈ declared ∨ f ∈ s.toList
  | [], _ => by simp
  | g :: declared, s => by
    rw [List.foldl_cons, mem_foldl_insert, mem_insert, List.mem_cons, or_left_comm, or_assoc]

theorem mem_ofList {f : Feature} {declared : List Feature} :
    f ∈ (ofList declared).toList ↔ f ∈ declared := by
  rw [ofList, mem_foldl_insert]; simp [empty]

/-- However features are declared, they are listed in emission order. -/
theorem toList_ofList (declared : List Feature) :
    (ofList declared).toList = Feature.all.filter (declared.contains ·) :=
  (ofList declared).ordered.ext (isOrdered_filter_all _) fun f => by
    simp [Feature.mem_all, mem_ofList]

/-! ### Features that are put in one after another -/

/-- The walk to the place of a feature passes it if it is there. -/
theorem isNew_iff {f : Feature} : ∀ {fs : List Feature}, IsOrdered fs → (isNew f fs = true ↔ f ∉ fs)
  | [], _ => by simp [isNew]
  | g :: gs, h => by
    obtain ⟨hg, hgs⟩ := List.pairwise_cons.1 h
    rw [isNew]
    split
    next heq => simp [heq]
    next hne =>
      split
      next hlt =>
        have hlater : f ∉ gs := fun hf => Nat.lt_asymm hlt (hg f hf)
        simp [hne, hlater]
      next => simp [isNew_iff hgs, hne]

theorem insertNew_eq (s : FeatureSet) (f : Feature) : s.insertNew f = (s.insert f, !s.contains f) := by
  rw [insertNew, Prod.mk.injEq, Bool.eq_iff_iff, isNew_iff s.ordered]
  simp [contains]

/-- Puts features in one after another, and tells of each whether it was new. -/
def insertAll (s : FeatureSet) : List Feature → FeatureSet × List Bool
  | [] => (s, [])
  | f :: fs =>
    let (s, new) := s.insertNew f
    let (s, news) := s.insertAll fs
    (s, new :: news)

theorem fst_insertAll : ∀ (fs : List Feature) (s : FeatureSet), (s.insertAll fs).1 = fs.foldl insert s
  | [], _ => rfl
  | f :: fs, s => by rw [List.foldl_cons, ← fst_insertAll fs]; rfl

/-- A feature is new the first time that it is put in, unless it was there from the start. -/
theorem snd_insertAll : ∀ (fs : List Feature) (s : FeatureSet) (i : Nat), (s.insertAll fs).2[i]? =
    fs[i]?.map fun f => !(s.contains f || (fs.take i).contains f)
  | [], _, _ => rfl
  | f :: fs, s, 0 => by
    change some (s.insertNew f).2 = _
    rw [insertNew_eq]
    simp
  | f :: fs, s, i + 1 => by
    change ((s.insertNew f).1.insertAll fs).2[i]? = _
    rw [insertNew_eq, snd_insertAll fs (s.insert f) i, List.getElem?_cons_succ]
    refine congrArg (fs[i]?.map ·) (funext fun g => ?_)
    have hinsert : (s.insert f).contains g = (s.contains g || (g == f)) := by
      rw [Bool.eq_iff_iff, contains, List.contains_iff_mem, mem_insert]
      simp [contains, or_comm]
    rw [hinsert, List.take_succ_cons, List.contains_cons, Bool.or_assoc]

end FeatureSet

end TypeGen.Spec
