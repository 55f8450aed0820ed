/-!
Features: the capabilities that a spec may ask for. However a spec lists them, they are emitted in
one order, and a set of features is kept in that order.
-/

namespace TypeGen.Spec

/-- A capability derived for a generated type; the order here is the order of emission. -/
inductive Feature where
  | eq | ord | hash | json | rapidcheck | fmt
  deriving DecidableEq, Repr

namespace Feature

/-- Every feature, in emission order. -/
def all : List Feature := [.eq, .ord, .hash, .json, .rapidcheck, .fmt]

/-- What an enum may ask for: its comparisons are built in. -/
def forEnums : List Feature := [.hash, .json, .rapidcheck, .fmt]

/-- Position in the order of emission. -/
def rank : Feature → Nat
  | .eq => 0
  | .ord => 1
  | .hash => 2
  | .json => 3
  | .rapidcheck => 4
  | .fmt => 5

/-- The token that names a feature in a spec. -/
def token : Feature → String
  | .eq => "eq"
  | .ord => "ord"
  | .hash => "hash"
  | .json => "json"
  | .rapidcheck => "rapidcheck"
  | .fmt => "fmt"

/-- The feature that a token names. -/
def ofToken? (s : String) : Option Feature := all.find? (·.token = s)

theorem rank_injective {f g : Feature} (h : f.rank = g.rank) : f = g := by
  cases f <;> cases g <;> simp_all [rank]

end Feature

/-! ### Sets of features -/

def IsOrdered (fs : List Feature) : Prop := fs.Pairwise (·.rank < ·.rank)

/-- Puts a feature in its place, in front of the first one of a later rank. -/
def place (f : Feature) : List Feature → List Feature
  | [] => [f]
  | g :: gs =>
    if f = g then g :: gs
    else if f.rank < g.rank then f :: g :: gs
    else g :: place f gs

/-- Whether a feature is still to be put in its place, looked for up to the first one of a later
rank. -/
def isNew (f : Feature) : List Feature → Bool
  | [] => true
  | g :: gs => if f = g then false else if f.rank < g.rank then true else isNew f gs

theorem mem_place {f g : Feature} {fs : List Feature} : g ∈ place f fs ↔ g = f ∨ g ∈ fs := by
  induction fs with
  | nil => simp [place]
  | cons x xs ih =>
    simp only [place]
    split
    next h => simp [h]
    next =>
      split
      · simp
      · simp only [List.mem_cons, ih]
        exact or_left_comm

theorem isOrdered_place (f : Feature) {fs : List Feature} (h : IsOrdered fs) :
    IsOrdered (place f fs) := by
  induction fs with
  | nil => exact List.pairwise_singleton ..
  | cons x xs ih =>
    obtain ⟨hx, hxs⟩ := List.pairwise_cons.1 h
    simp only [place]
    split
    next => exact h
    next hne =>
      split
      next hlt =>
        refine List.pairwise_cons.2 ⟨fun y hy => ?_, h⟩
        rcases List.mem_cons.1 hy with rfl | hy
        · exact hlt
        · exact Nat.lt_trans hlt (hx y hy)
      next hlt =>
        refine List.pairwise_cons.2 ⟨fun y hy => ?_, ih hxs⟩
        rcases mem_place.1 hy with rfl | hy
        · exact Nat.lt_of_le_of_ne (Nat.le_of_not_lt hlt) fun he =>
            hne (Feature.rank_injective he.symm)
        · exact hx y hy

/-- A set of features, listed in emission order. -/
structure FeatureSet where
  toList : List Feature
  ordered : IsOrdered toList
  deriving DecidableEq

namespace FeatureSet

def empty : FeatureSet := ⟨[], List.Pairwise.nil⟩

def contains (s : FeatureSet) (f : Feature) : Bool := s.toList.contains f

def insert (s : FeatureSet) (f : Feature) : FeatureSet :=
  ⟨place f s.toList, isOrdered_place f s.ordered⟩

/-- Puts a feature in, and tells whether it was not there before. -/
def insertNew (s : FeatureSet) (f : Feature) : FeatureSet × Bool := (s.insert f, isNew f s.toList)

def ofList (fs : List Feature) : FeatureSet := fs.foldl insert empty

def size (s : FeatureSet) : Nat := s.toList.length

def isEmpty (s : FeatureSet) : Bool := s.toList.isEmpty

end FeatureSet

end TypeGen.Spec
