import TypeGen.Code.Page

/-!
Reading what is written. A reader takes one character after the other, and a character may have no
place where it comes. The margins of a page count for nothing with a reader, so it comes from what is
added to a page to where it comes from the texts that were written.
-/

namespace TypeGen.Code

structure Reader (σ : Type) where
  step : σ → Char → Option σ
  /-- Where a line begins, blanks lead nowhere. -/
  margin : ∀ {s s' : σ}, step s '\n' = some s' → ∀ c, c = ' ' ∨ c = '\t' → step s' c = some s'

namespace Reader

variable {σ : Type} (r : Reader σ)

def read (s : σ) (cs : List Char) : Option σ := cs.foldlM r.step s

@[simp] theorem read_nil (s : σ) : r.read s [] = some s := rfl

theorem read_cons (s : σ) (c : Char) (cs : List Char) :
    r.read s (c :: cs) = (r.step s c).bind (r.read · cs) := List.foldlM_cons

theorem read_append (s : σ) (xs ys : List Char) :
    r.read s (xs ++ ys) = (r.read s xs).bind (r.read · ys) := List.foldlM_append

theorem read_append_of {s s' : σ} {xs : List Char} (h : r.read s xs = some s') (ys : List Char) :
    r.read s (xs ++ ys) = r.read s' ys := by
  rw [read_append, h]; rfl

/-- Characters that lead nowhere. -/
theorem read_of_idle {s : σ} {cs : List Char} (h : ∀ c ∈ cs, r.step s c = some s) :
    r.read s cs = some s := by
  induction cs with
  | nil => rfl
  | cons c cs ih =>
    rw [read_cons, h c (List.mem_cons_self ..)]
    exact ih fun c hc => h c (List.mem_cons_of_mem _ hc)

/-- A state in which a line may begin. -/
def Rests (s : σ) : Prop := ∀ c, c = ' ' ∨ c = '\t' → r.step s c = some s

/-- The reader is where the page allows it to be. -/
def Fits (p : Page) (s : σ) : Prop := p.atLineStart = true → r.Rests s

/-- What page `q` has on top of page `p` takes the reader from `s` to `s'`. -/
structure Follows (p : Page) (s : σ) (q : Page) (s' : σ) : Prop where
  added : ∃ w, q.text = p.text ++ w ∧ r.read s w.toList = some s'
  fits : r.Fits q s'

variable {r} {p q q' : Page} {s s' s'' : σ}

theorem Follows.refl (h : r.Fits p s) : r.Follows p s p s := ⟨⟨"", by simp, rfl⟩, h⟩

theorem Follows.trans (h : r.Follows p s q s') (h' : r.Follows q s' q' s'') :
    r.Follows p s q' s'' := by
  obtain ⟨w, hw, hr⟩ := h.added
  obtain ⟨w', hw', hr'⟩ := h'.added
  refine ⟨⟨w ++ w', by rw [hw', hw, String.append_assoc], ?_⟩, h'.fits⟩
  rw [String.toList_append, r.read_append_of hr, hr']

/-! ### Writing -/

theorem mem_margin {p : Page} {c : Char} (h : c ∈ p.margin.toList) : c = ' ' ∨ c = '\t' := by
  have hunit : ∀ i : Indent, ∀ c ∈ i.unit.toList, c = ' ' ∨ c = '\t' := by
    intro i
    unfold Indent.unit
    split <;> simp
  have hlevels : ∀ n, c ∈ (String.join (List.replicate n p.indent.unit)).toList →
      c = ' ' ∨ c = '\t' := fun n => by
    induction n with
    | zero => simp
    | succ n ih =>
      rw [List.replicate_succ, String.join_cons, String.toList_append, List.mem_append]
      rintro (h | h)
      · exact hunit _ c h
      · exact ih h
  exact hlevels p.level h

theorem follows_put (hp : r.Fits p s) {c : Char} (h : r.step s c = some s') :
    r.Follows p s (p.put c) s' := by
  have hread : r.read s [c] = some s' := by rw [read_cons, h]; rfl
  rw [Page.put]
  split
  next hc => exact ⟨⟨"".push c, by simp, by simpa using hread⟩, fun _ => r.margin (hc ▸ h)⟩
  next =>
    split
    next hline =>
      refine ⟨⟨p.margin.push c, String.toList_inj.1 (by simp), ?_⟩, fun h0 => by cases h0⟩
      rw [String.toList_push, r.read_append_of (r.read_of_idle fun c hc => hp hline c (mem_margin hc)),
        hread]
    next => exact ⟨⟨"".push c, by simp, by simpa using hread⟩, fun h0 => absurd h0 ‹_›⟩

theorem follows_foldl : ∀ {cs : List Char} {p : Page} {s : σ}, r.Fits p s → r.read s cs = some s' →
    r.Follows p s (cs.foldl Page.put p) s'
  | [], _, _, hp, h => by cases h; exact .refl hp
  | c :: cs, p, s, hp, h => by
    rw [read_cons] at h
    obtain ⟨t, ht, h⟩ := Option.bind_eq_some_iff.1 h
    have hput := follows_put hp ht
    exact hput.trans (follows_foldl hput.fits h)

theorem follows_write (hp : r.Fits p s) {t : String} (h : r.read s t.toList = some s') :
    r.Follows p s (p.write t) s' := follows_foldl hp h

theorem follows_newline (hp : r.Fits p s) (h : r.step s '\n' = some s') :
    r.Follows p s p.newline s' := follows_put hp h

theorem follows_line (hp : r.Fits p s) {t : String} (h : r.read s t.toList = some s')
    (hline : r.step s' '\n' = some s'') : r.Follows p s (p.write t).newline s'' :=
  (follows_write hp h).trans (follows_newline (follows_write hp h).fits hline)

/-- A line that has not begun need not be ended. -/
theorem follows_freshLine (hp : r.Fits p s) (h : r.step s '\n' = some s')
    (hs : p.atLineStart = true → s' = s) : r.Follows p s p.freshLine s' := by
  rw [Page.freshLine]
  split
  next hline => rw [hs hline]; exact .refl hp
  next => exact follows_newline hp h

/-- The level of a page is not read. -/
theorem Follows.of_level (h : r.Follows p s q s') (n : Nat) :
    r.Follows p s { q with level := n } s' := ⟨h.added, h.fits⟩

/-! ### Scopes -/

variable {setting : Setting}

/-- A scope starts where lines may, and what it opens begins where lines may as well. -/
theorem follows_enter (hp : r.Fits p s) (hline : r.step s '\n' = some s) {opening : String}
    (h : r.read s opening.toList = some s') (hline' : r.step s' '\n' = some s') :
    r.Follows p s (setting.enter opening p) s' := by
  have hfresh : r.Follows p s p.freshLine s := follows_freshLine hp hline fun _ => rfl
  have hopen := follows_write hp h
  cases setting with
  | inline => exact hopen
  | indented => exact (hopen.trans (follows_freshLine hopen.fits hline' fun _ => rfl)).of_level _
  | lines => exact hfresh.trans (follows_write hfresh.fits h)

/-- A scope ends alike on the line where it is and on the next one. -/
theorem follows_leave (hp : r.Fits p s) (hline : r.step s '\n' = some s')
    (hs : p.atLineStart = true → s' = s) {closing : String} (h : r.read s closing.toList = some s'')
    (h' : r.read s' closing.toList = some s'') : r.Follows p s (setting.leave closing p) s'' := by
  have hfresh : r.Follows p s p.freshLine s' := follows_freshLine hp hline hs
  cases setting with
  | inline => exact follows_write hp h
  | indented =>
    have hshallower : r.Follows p s p.freshLine.shallower s' := hfresh.of_level _
    exact hshallower.trans (follows_write hshallower.fits h')
  | lines => exact hfresh.trans (follows_write hfresh.fits h')

end Reader

end TypeGen.Code
