import Mathlib.Logic.Basic
import TypeGen.Proofs.Code.Lexing
import TypeGen.Proofs.Code.Signatures

/-!
Phrases. Most texts of code are put together from fixed words and from what stands between them. Where
the fixed words lead does not depend on the code that is put between them, as long as that is clear.
-/

namespace TypeGen.Code

open TypeGen.Text

/-- A piece of a phrase. Fixed words are given by their characters. -/
inductive Piece where
  | fixed (cs : List Char)
  /-- Code of its own. -/
  | code {t : String} (h : Clear t)
  /-- Text inside of a literal or of a comment. -/
  | inner {t : String} (h : Unquoted t)

namespace Piece

def text : Piece → String
  | .fixed cs => String.ofList cs
  | @code t _ => t
  | @inner t _ => t

/-- Where a piece leads, as far as that is known without looking into what is not fixed: behind code,
there may be a slash. -/
def read (s : Lexed) : Piece → Option Lexed
  | .fixed cs => if s.mode ≠ .slash ∨ StartsNoComment cs then lexer.read s cs else none
  | .code _ => if s.mode = .code then some ⟨.slash, s.due⟩ else none
  | .inner _ => if s.mode = .literal ∨ s.mode = .line then some s else none

/-- State `s` is what is known of state `s'`. -/
def Shows (s s' : Lexed) : Prop := s' = s ∨ s.mode = .slash ∧ s' = ⟨.code, s.due⟩

theorem Shows.eq {s s' : Lexed} (h : Shows s s') (hmode : s.mode ≠ .slash) : s' = s :=
  h.resolve_right fun h0 => hmode h0.1

theorem shows_of_read {p : Piece} {s s' next : Lexed} (h : p.read s = some next) (hs : Shows s s') :
    ∃ next', lexer.read s' p.text.toList = some next' ∧ Shows next next' := by
  obtain ⟨mode, due⟩ := s
  cases p with
  | fixed cs =>
    simp only [read, text, String.toList_ofList] at h ⊢
    split at h
    next hcond =>
      rcases hs with rfl | ⟨hmode, rfl⟩
      · exact ⟨next, h, .inl rfl⟩
      · obtain rfl : mode = .slash := hmode
        cases cs with
        | nil => cases h; exact ⟨_, rfl, .inr ⟨rfl, rfl⟩⟩
        | cons c cs =>
          rw [InCode.read (.inr rfl) (by simp) (hcond.resolve_left (not_not.2 rfl))] at h
          exact ⟨next, h, .inl rfl⟩
    next => cases h
  | code ht =>
    simp only [read, text] at h ⊢
    split at h
    next hmode =>
      cases h
      obtain rfl : mode = .code := hmode
      obtain rfl := hs.eq (by simp)
      obtain ⟨s', hread, hin⟩ := ht.read due
      refine ⟨s', hread, ?_⟩
      rcases hin with rfl | rfl
      · exact .inr ⟨rfl, rfl⟩
      · exact .inl rfl
    next => cases h
  | inner ht =>
    simp only [read, text] at h ⊢
    split at h
    next hmode =>
      cases h
      obtain rfl := hs.eq (by rcases hmode with rfl | rfl <;> simp)
      refine ⟨_, ?_, .inl rfl⟩
      rcases hmode with rfl | rfl
      · exact ht.read_literal due
      · exact ht.read_line due
    next => cases h

end Piece

/-- The text of pieces. -/
def phrase (first : Piece) (rest : List Piece) : String := rest.foldl (· ++ ·.text) first.text

theorem toList_phrase (first : Piece) (rest : List Piece) :
    (phrase first rest).toList = (first :: rest).flatMap (·.text.toList) := by
  have hall : ∀ (ps : List Piece) (t : String),
      (ps.foldl (· ++ ·.text) t).toList = t.toList ++ ps.flatMap (·.text.toList) := fun ps => by
    induction ps with
    | nil => simp
    | cons p ps ih =>
      intro t
      rw [List.foldl_cons, ih, String.toList_append, List.flatMap_cons, List.append_assoc]
  exact hall rest _

def readPieces (s : Lexed) (ps : List Piece) : Option Lexed := ps.foldlM Piece.read s

theorem shows_of_readPieces : ∀ {ps : List Piece} {s s' last : Lexed},
    readPieces s ps = some last → Piece.Shows s s' →
      ∃ last', lexer.read s' (ps.flatMap (·.text.toList)) = some last' ∧ Piece.Shows last last'
  | [], _, _, _, h, hs => by cases h; exact ⟨_, rfl, hs⟩
  | p :: ps, _, _, _, h, hs => by
    rw [readPieces, List.foldlM_cons] at h
    obtain ⟨next, hnext, h⟩ := Option.bind_eq_some_iff.1 h
    obtain ⟨next', hread, hshows⟩ := Piece.shows_of_read hnext hs
    rw [List.flatMap_cons, lexer.read_append_of hread]
    exact shows_of_readPieces h hshows

/-- A phrase that leads from code to somewhere, with nothing left open there. -/
theorem read_phrase {due : List Char} {s : Lexed} (first : Piece) (rest : List Piece)
    (h : readPieces ⟨.code, due⟩ (first :: rest) = some s) (hs : s.mode ≠ .slash) :
    lexer.read ⟨.code, due⟩ (phrase first rest).toList = some s := by
  obtain ⟨s', hread, hshows⟩ := shows_of_readPieces h (.inl rfl)
  rw [toList_phrase, hread, hshows.eq hs]

/-- Whether pieces lead from code to code. -/
def comesBack (ps : List Piece) : Bool :=
  (readPieces ⟨.code, []⟩ ps).any fun s => s = ⟨.code, []⟩ ∨ s = ⟨.slash, []⟩

theorem clear_phrase (first : Piece) (rest : List Piece) (h : comesBack (first :: rest) = true) :
    Clear (phrase first rest) := by
  rw [comesBack, Option.any_eq_true] at h
  obtain ⟨s, hs, hin⟩ := h
  rw [decide_eq_true_eq] at hin
  obtain ⟨s', hread, hshows⟩ := shows_of_readPieces hs (.inl rfl)
  refine ⟨s', by rw [toList_phrase]; exact hread, ?_⟩
  rcases hshows with rfl | ⟨hmode, rfl⟩
  · exact hin
  · rcases hin with rfl | rfl
    · cases hmode
    · exact .inl rfl

theorem clear_fixed {cs : List Char} (h : comesBack [.fixed cs] = true) : Clear (String.ofList cs) :=
  clear_phrase (.fixed cs) [] h

/-- Texts behind a reference or a pointer are not behind a slash. -/
theorem clear_attached {s t : String} {c : Char} (hlast : s.toList.getLast? = some c) (hc : c ≠ '/')
    (hs : Clear s) (ht : Clear t) : Clear (s ++ t) := by
  obtain ⟨s', hread, hin⟩ := ht
  refine ⟨s', ?_, hin⟩
  rw [String.toList_append, lexer.read_append_of (hs.read_of_last hlast hc [])]
  exact hread

theorem combines_clear : Combines Clear where
  empty := clear_empty
  behind word hword t ht := by
    simp only [List.mem_cons, List.not_mem_nil, or_false] at hword
    rcases hword with rfl | rfl | rfl <;> exact clear_phrase (.fixed _) [.code ht] (by rfl)
  const hs := clear_phrase (.code hs) [.fixed _] (by rfl)
  between sep hsep s t hs ht := by
    simp only [List.mem_cons, List.not_mem_nil, or_false] at hsep
    rcases hsep with rfl | rfl | rfl | rfl <;>
      exact clear_phrase (.code hs) [.fixed _, .code ht] (by rfl)
  attached h hs ht := by
    rcases h with h | h <;> exact clear_attached h (by decide) hs ht
  call hs ht := clear_phrase (.code hs) [.fixed _, .code ht, .fixed _] (by rfl)
  template ht := clear_phrase (.fixed _) [.code ht, .fixed _] (by rfl)

end TypeGen.Code
