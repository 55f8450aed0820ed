import Mathlib.Data.List.Forall2
import TypeGen.Proofs.Path.Following

/-!
Paths that are spelled in two ways. The paths around a path, and what is left of it behind a base,
have the same components however it is spelled; and a path that is made absolute has no pieces that
count for nothing but ahead of all others, where a relative path does not show them.
-/

namespace TypeGen.Store.FilePath

/-! ### Paths around a path -/

/-- A path has a parent unless it is empty or the root. -/
theorem parent?_eq_none_iff {p : FilePath} : p.parent? = none ↔ ∀ c ∈ p.components, c = .root := by
  have hnone : p.parent? = none ↔ p.tidyEnd = [] := by
    rw [parent?]
    split
    next h => simpa using h
    next h => simpa using h
  rw [hnone]
  constructor
  · intro h c hc
    have hcounted : counted p.pieces = [] := by rw [← counted_tidyEnd, h]; rfl
    rw [components_eq, hcounted, List.append_nil] at hc
    rcases mem_head? hc with ⟨hroot, -⟩ | ⟨rfl, -⟩
    · exact hroot
    · have hhead : p.head? = some .current := by simpa using hc
      rw [tidyEnd, hhead] at h
      cases hp : p.pieces with
      | nil => rw [head?, hp] at hhead; split at hhead <;> cases hhead
      | cons dot rest => rw [hp] at h; cases h
  · intro h
    by_contra hne
    by_cases hc : p.head? = some .current
    · have := h .current (by rw [components_eq, hc]; exact List.mem_cons_self ..)
      cases this
    · rw [tidyEnd_of_ne_current hc] at hne
      obtain ⟨init, last, heq, hlast⟩ := exists_of_dropIdle_ne_nil hne
      obtain ⟨c, hcount⟩ := counted_concat init hlast
      have hmem : c ∈ counted p.pieces := by
        rw [← counted_dropIdle, heq, hcount]
        exact List.mem_append_right _ (List.mem_singleton_self c)
      exact (mem_counted hmem).1 (h c (List.mem_append_right _ hmem))

theorem length_parent? {p q : FilePath} (h : p.parent? = some q) :
    q.pieces.length < p.pieces.length := by
  rw [parent?] at h
  split at h
  · cases h
  next hne =>
    cases h
    have hpos : 0 < p.tidyEnd.length := List.length_pos_iff.2 (by simpa using hne)
    have htidy := p.prefix_tidyEnd.length_le
    have hlast := (prefix_tidyEnd (⟨p.rooted, p.tidyEnd.dropLast⟩ : FilePath)).length_le
    rw [List.length_dropLast] at hlast
    dsimp only at hlast ⊢
    omega

/-- Spellings of one path: they have the same components. -/
def Respells (p q : FilePath) : Prop := p.components = q.components

theorem respells_go : ∀ {n m : Nat} {p q : FilePath}, p.pieces.length < n → q.pieces.length < m →
    p.Respells q → List.Forall₂ Respells (ancestors.go n p) (ancestors.go m q)
  | n + 1, m + 1, p, q, hn, hm, h => by
    rw [ancestors.go, ancestors.go]
    have hroot : p.parent? = none ↔ q.parent? = none := by
      rw [parent?_eq_none_iff, parent?_eq_none_iff, h]
    cases hp : p.parent? with
    | none =>
      rw [hroot.1 hp]
      exact .cons h .nil
    | some p' =>
      cases hq : q.parent? with
      | none => rw [hroot.2 hq] at hp; cases hp
      | some q' =>
        have hp' := length_parent? hp
        have hq' := length_parent? hq
        refine .cons h (respells_go (by omega) (by omega) ?_)
        rw [Respells, components_of_parent? hp, components_of_parent? hq, h]

/-- The paths around two spellings of a path are spellings of each other. -/
theorem respells_ancestors {p q : FilePath} (h : p.Respells q) :
    List.Forall₂ Respells p.ancestors q.ancestors :=
  respells_go (Nat.lt_succ_self _) (Nat.lt_succ_self _) h

/-! ### Relative paths -/

theorem relativeTo?_respelled {p q base base' : FilePath} (h : p.Respells q)
    (hbase : base.Respells base') :
    (p.relativeTo? base).map components = (q.relativeTo? base').map components := by
  by_cases hpre : base.components <+: p.components
  · obtain ⟨rel, hrel, hc⟩ := exists_relativeTo?_append hpre
    have hpre' : base'.components <+: q.components := h ▸ hbase ▸ hpre
    obtain ⟨rel', hrel', hc'⟩ := exists_relativeTo?_append hpre'
    rw [hrel, hrel', Option.map_some, Option.map_some, Option.some_inj]
    rw [h, hc', hbase] at hc
    exact (List.append_cancel_left hc).symm
  · have hp : p.relativeTo? base = none := by
      rw [relativeTo?]
      exact if_neg (mt List.isPrefixOf_iff_prefix.1 hpre)
    have hq : q.relativeTo? base' = none := by
      rw [relativeTo?]
      exact if_neg (mt List.isPrefixOf_iff_prefix.1 (h ▸ hbase ▸ hpre))
    rw [hp, hq]

theorem counted_append_of_idle {lead : List String} (hlead : ∀ s ∈ lead, isIdle s = true)
    (ps : List String) : counted (lead ++ ps) = counted ps := by
  rw [counted_append, counted_of_idle hlead, List.nil_append]

theorem dropCounted_append_of_idle : ∀ {lead : List String}, (∀ s ∈ lead, isIdle s = true) →
    ∀ (n : Nat) (ps : List String), dropCounted n (lead ++ ps) = dropCounted n ps
  | [], _, _, _ => rfl
  | piece :: lead, h, n, ps => by
    have hidle := h piece (List.mem_cons_self ..)
    have ih := dropCounted_append_of_idle (fun s hs => h s (List.mem_cons_of_mem _ hs)) n ps
    cases n with
    | zero =>
      rw [dropCounted, dropCounted] at ih
      rw [List.cons_append, dropCounted, List.dropWhile_cons_of_pos hidle, ih, dropCounted]
    | succ n => rw [List.cons_append, dropCounted, if_pos hidle]; exact ih

/-- What is left behind a base does not show the pieces ahead of all that count. -/
theorem relativeTo?_append_of_idle {lead : List String} (hlead : ∀ s ∈ lead, isIdle s = true)
    (ps : List String) {base : FilePath} (hb : base.components ≠ []) :
    (⟨true, lead ++ ps⟩ : FilePath).relativeTo? base = (⟨true, ps⟩ : FilePath).relativeTo? base := by
  have hc : (⟨true, lead ++ ps⟩ : FilePath).components = (⟨true, ps⟩ : FilePath).components := by
    rw [components_eq, components_eq, counted_append_of_idle hlead]
    rfl
  have hhead : (⟨true, lead ++ ps⟩ : FilePath).head? = (⟨true, ps⟩ : FilePath).head? := rfl
  have hempty : base.components.isEmpty = false := by simpa using hb
  simp only [relativeTo?, hc, hhead, hempty, Bool.false_eq_true, if_false,
    dropCounted_append_of_idle hlead]

/-! ### Absolute paths -/

theorem dropIdle_concat (ps : List String) {last : String} (h : isIdle last = false) :
    dropIdle (ps ++ [last]) = ps ++ [last] := by
  rw [dropIdle, List.reverse_concat, List.dropWhile_cons_of_neg (by simp [h]), List.reverse_cons,
    List.reverse_reverse]

theorem dropIdle_of_idle {ps : List String} (h : ∀ s ∈ ps, isIdle s = true) : dropIdle ps = [] := by
  rw [dropIdle, List.dropWhile_eq_nil_iff.2 fun s hs => h s (List.mem_reverse.1 hs), List.reverse_nil]

/-- What is joined to a rooted path that ends in a piece that counts, or has none, comes behind it. -/
theorem join_of_rooted {ps : List String} (hps : ∀ last ∈ ps.getLast?, isIdle last = false)
    {q : FilePath} (hr : q.rooted = false) (hne : q.pieces ≠ []) :
    (⟨true, ps⟩ : FilePath).join q = ⟨true, ps ++ q.pieces⟩ := by
  have hempty : q.pieces.isEmpty = false := by simpa using hne
  rw [join, hr, hempty]
  rcases List.eq_nil_or_concat ps with rfl | ⟨init, last, rfl⟩
  · rfl
  · have hlast : isIdle last = false := hps last (by simp)
    have hopen : last ≠ "" := fun h0 => by rw [h0] at hlast; cases hlast
    simp [endsOpen, hopen]

/-- A rooted path all of whose pieces count, but for such as are ahead of all others. -/
structure IsAbsolute (p : FilePath) (lead inner : List String) : Prop where
  eq : p = ⟨true, lead ++ inner⟩
  idle : ∀ s ∈ lead, isIdle s = true
  active : ∀ s ∈ inner, isIdle s = false

namespace IsAbsolute

variable {p q : FilePath} {lead lead' inner inner' : List String}

theorem active_pieces (h : p.IsAbsolute lead inner) : Store.active p.pieces = inner := by
  rw [h.eq, Store.active, List.filter_append, List.filter_eq_nil_iff.2 fun s hs => by simp [h.idle s hs],
    List.filter_eq_self.2 fun s hs => by simp [h.active s hs], List.nil_append]

/-- Spellings of one path count the same pieces. -/
theorem inner_eq (h : p.IsAbsolute lead inner) (h' : q.IsAbsolute lead' inner') (hpq : p.Respells q) :
    inner = inner' := by
  rw [← h.active_pieces, ← h'.active_pieces, active_eq_map_text, active_eq_map_text,
    counted_congr hpq]

/-- The name at the end may be changed for another, which may lead on into directories. -/
theorem withFileName (h : p.IsAbsolute lead inner) {old name : String}
    (hold : p.fileName? = some old) (hinner : (ofString name).IsInner)
    (hne : (ofString name).pieces ≠ []) : ∃ lead', (∀ s ∈ lead', isIdle s = true) ∧
      p.withFileName name = ⟨true, lead' ++ (inner.dropLast ++ (ofString name).pieces)⟩ := by
  obtain ⟨init, last, rfl⟩ : ∃ init last, inner = init ++ [last] := by
    rcases List.eq_nil_or_concat inner with rfl | ⟨init, last, rfl⟩
    · have hmem := (mem_pieces_of_fileName? hold)
      rw [h.eq, List.append_nil] at hmem
      rw [componentOf?_of_isIdle (h.idle _ hmem.1)] at hmem
      cases hmem.2
    · exact ⟨init, last, List.concat_eq_append ..⟩
  have hlast : isIdle last = false := h.active last (List.mem_append_right _ (List.mem_singleton_self _))
  have hparent : p.parent? = some ⟨true, dropIdle (lead ++ init)⟩ := by
    have htidy : p.tidyEnd = (lead ++ init) ++ [last] := by
      rw [h.eq, tidyEnd_of_ne_current (head?_ne_current rfl), ← List.append_assoc, dropIdle_concat _ hlast]
    have htidy' : (⟨true, lead ++ init⟩ : FilePath).tidyEnd = dropIdle (lead ++ init) :=
      tidyEnd_of_ne_current (head?_ne_current rfl)
    have hr : p.rooted = true := by rw [h.eq]
    rw [parent?, htidy, if_neg (by simp), List.dropLast_concat, hr]
    exact congrArg (fun ps => some (⟨true, ps⟩ : FilePath)) htidy'
  rw [FilePath.withFileName, hold, hparent, List.dropLast_concat]
  change ∃ lead', _ ∧ (⟨true, dropIdle (lead ++ init)⟩ : FilePath).join (ofString name) = _
  rcases List.eq_nil_or_concat init with rfl | ⟨before, b, rfl⟩
  · refine ⟨[], by simp, ?_⟩
    rw [List.append_nil, dropIdle_of_idle h.idle, join_of_rooted (by simp) hinner.unrooted hne]
    rfl
  · have hb : isIdle b = false := h.active b (by simp)
    refine ⟨lead, h.idle, ?_⟩
    rw [List.concat_eq_append, ← List.append_assoc, dropIdle_concat _ hb,
      join_of_rooted (by simpa using hb) hinner.unrooted hne, List.append_assoc, List.append_assoc]
    simp

end IsAbsolute

/-- Where one works: a rooted path all of whose pieces count. -/
def IsWorkingDirectory (cwd : FilePath) : Prop :=
  cwd.rooted = true ∧ ∀ s ∈ cwd.pieces, isIdle s = false

theorem not_endsInName_of_endsOpen {p : FilePath} (h : p.endsOpen = true) : ¬ EndsInName p.pieces := by
  rintro ⟨last, name, hlast, hname⟩
  rw [endsOpen, hlast] at h
  rw [of_decide_eq_true h] at hname
  cases hname

/-- A slash at the end leads into a directory, not to a file. -/
theorem not_endsInName_child (p : FilePath) : ¬ EndsInName (p.child "").pieces := by
  have hempty : ofString "" = ⟨false, []⟩ := rfl
  rw [child, hempty, join]
  simp only [Bool.false_eq_true, if_false, List.isEmpty_nil, if_true]
  split
  next h => exact not_endsInName_of_endsOpen h
  next h =>
    split
    · rintro ⟨last, name, hlast, -⟩
      cases hlast
    · rintro ⟨last, name, hlast, hname⟩
      obtain rfl : "" = last := by simpa using hlast
      cases hname

/-- A path that is made absolute and may be that of a file counts all its pieces, a second slash at
the start aside. -/
theorem isAbsolute_absolute {cwd p : FilePath} (hcwd : cwd.IsWorkingDirectory)
    (hends : EndsInName (absolute cwd p).pieces) :
    ∃ lead inner, (absolute cwd p).IsAbsolute lead inner := by
  obtain ⟨hrooted, hpieces⟩ := hcwd
  have hactive : ∀ s ∈ p.pieces.filter (!isIdle ·), isIdle s = false := fun s hs => by
    simpa using List.of_mem_filter hs
  rw [absolute] at hends ⊢
  simp only at hends ⊢
  generalize p.pieces.filter (!isIdle ·) = added at hactive hends ⊢
  by_cases hopen : p.endsOpen = true
  · rw [if_pos hopen] at hends
    exact absurd hends (not_endsInName_child _)
  · rw [if_neg hopen] at hends ⊢
    by_cases hadded : added = []
    · subst hadded
      simp only [List.isEmpty_nil, if_true] at hends ⊢
      split at hends
      · obtain ⟨last, name, hlast, hname⟩ := hends
        cases hlast
        cases hname
      · split at hends
        · exact absurd rfl hends.ne_nil
        next hd hr =>
          rw [if_neg hd, if_neg hr]
          refine ⟨[], cwd.pieces, ?_, by simp, hpieces⟩
          rw [← hrooted]; rfl
    · have hne : added.isEmpty = false := by simpa using hadded
      simp only [hne, Bool.false_eq_true, if_false] at hends ⊢
      split
      · exact ⟨[""], added, by simp [join, endsOpen, hadded], by simp [isIdle], hactive⟩
      · split
        · exact ⟨[], added, join_of_rooted (by simp) rfl hadded, by simp, hactive⟩
        · have hcwd : cwd = ⟨true, cwd.pieces⟩ := by rw [← hrooted]
          refine ⟨[], cwd.pieces ++ added, ?_, by simp, fun s hs =>
            (List.mem_append.1 hs).elim (hpieces s) (hactive s)⟩
          rw [hcwd]
          exact join_of_rooted (fun last hlast => hpieces last (List.mem_of_getLast? hlast)) rfl hadded

end TypeGen.Store.FilePath
