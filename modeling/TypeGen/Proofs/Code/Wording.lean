import TypeGen.Proofs.Code.Scopes
import TypeGen.Proofs.Code.Signatures
import TypeGen.Text.Quoted

/-!
Wording. Code is put together from the fragments of a spec, from literals and from words of its own. What
holds of texts without a line feed and of texts that are put together from others holds of all its lines,
each of which shows by a character of its own that it is no comment.
-/

namespace TypeGen.Code

open TypeGen.Text TypeGen.Spec

/-! ### Texts put together -/

/-- A property of texts that is read off their parts, and that a text without a line feed has. -/
structure Composes (N : String → Prop) : Prop where
  plain : ∀ {t : String}, '\n' ∉ t.toList → N t
  append : ∀ {s t : String}, N (s ++ t) ↔ N s ∧ N t

/-- Characters that neither are blank nor open a comment. -/
def isInk (c : Char) : Bool := c ∉ [' ', '\t', '\n', '/', '*']

def HasInk (t : String) : Prop := t.toList.any isInk = true

instance (t : String) : Decidable (HasInk t) := inferInstanceAs (Decidable (_ = _))

/-- Steps that keep the level, end well, and whose texts, comments aside, have a property. -/
def Step.IsWorded (N D : String → Prop) : Step → Prop
  | .line t => N t ∧ HasInk t
  | .doc t => D t
  | .join separator _ => separator = "\n"
  | .text _ | .indent | .dedent | .block .. | .fail _ | .unwind _ => False
  | s => ∀ t ∈ s.texts, N t

variable {N D : String → Prop}

/-- A line that ends in a fixed word. -/
theorem worded_line {t e : String} (h : N (t ++ e)) (he : HasInk e) :
    (Step.line (t ++ e)).All (Step.IsWorded N D) := by
  have hink : HasInk (t ++ e) := by
    rw [HasInk, String.toList_append, List.any_append, Bool.or_eq_true]
    exact .inr he
  exact ⟨h, hink⟩

namespace Composes

variable (hN : Composes N)
include hN

/-- A line that is a fixed word. -/
theorem worded_fixed {t : String} (hn : '\n' ∉ t.toList) (ht : HasInk t) :
    (Step.line t).All (Step.IsWorded N D) := ⟨hN.plain hn, ht⟩

theorem between {sep s t : String} (hsep : '\n' ∉ sep.toList) (hs : N s) (ht : N t) :
    N (s ++ sep ++ t) := hN.append.2 ⟨hN.append.2 ⟨hs, hN.plain hsep⟩, ht⟩

theorem joinWith {sep : String} (hsep : '\n' ∉ sep.toList) {ts : List String} (h : ∀ t ∈ ts, N t) :
    N (joinWith sep ts) :=
  joinWith_of (hN.plain (by simp)) (hN.between hsep) h

theorem combines : Combines N where
  empty := hN.plain (by simp)
  behind word hword t ht := hN.append.2 ⟨hN.plain (by revert word; decide), ht⟩
  const hs := hN.append.2 ⟨hs, hN.plain (by simp)⟩
  between sep hsep s t hs ht := hN.between (by revert sep; decide) hs ht
  attached _ hs ht := hN.append.2 ⟨hs, ht⟩
  call hs ht := by simpa [hN.append, hs, ht] using ⟨hN.plain (by simp), hN.plain (by simp)⟩
  template ht := by simpa [hN.append, ht] using ⟨hN.plain (by simp), hN.plain (by simp)⟩

theorem literal (t : String) : N (Quoted.literal t) := by
  refine hN.plain fun h => ?_
  have hescape : ∀ c, '\n' ∉ Quoted.escape c := by
    intro c
    unfold Quoted.escape
    split <;> simp_all [eq_comm]
  rw [Quoted.literal, String.toList_ofList, Quoted.encode] at h
  simp [hescape] at h

end Composes

end TypeGen.Code
