import TypeGen.Proofs.Path.Components

/-!
Putting paths together and taking them apart: what joining, naming and looking from another path do
to components, and which paths lie around a path.
-/

namespace TypeGen.Store.FilePath

open TypeGen.Text

/-- Paths that add components where they are joined: neither rooted nor with a dot in front. -/
structure IsInner (p : FilePath) : Prop where
  unrooted : p.rooted = false
  noDot : p.pieces.head? ≠ some "."

theorem IsInner.components {p : FilePath} (h : p.IsInner) : p.components = counted p.pieces :=
  components_of_relative h.unrooted h.noDot

theorem IsInner.of_parent? {p q : FilePath} (hp : p.IsInner) (h : p.parent? = some q) :
    q.IsInner := by
  refine ⟨by rw [rooted_of_parent? h, hp.unrooted], fun hd => hp.noDot ?_⟩
  obtain ⟨tail, htail⟩ := prefix_of_parent? h
  cases hq : q.pieces with
  | nil => rw [hq] at hd; cases hd
  | cons x xs => rw [hq] at hd htail; rw [← htail]; exact hd

theorem isInner_empty : FilePath.empty.IsInner := ⟨rfl, by simp [empty]⟩

theorem isInner_of_isPlain {s : String} (h : IsPlain s) : (ofString s).IsInner := by
  rw [ofString_of_isPlain h]
  refine ⟨rfl, fun hd => ?_⟩
  have hs : s = "." := by simpa using hd
  have := h.active
  simp [isIdle, hs] at this

/-! ### Joining -/

/-- A path ends open where a slash stands last: behind a piece, or alone as the root. -/
theorem endsOpen_cases {p : FilePath} (h : p.endsOpen = true) :
    (p.pieces = [] ∧ p.rooted = true) ∨ ∃ init, p.pieces = init ++ [""] := by
  rw [endsOpen] at h
  cases hlast : p.pieces.getLast? with
  | none => exact .inl ⟨List.getLast?_eq_none_iff.1 hlast, by simpa [hlast] using h⟩
  | some last =>
    obtain rfl : last = "" := by simpa [hlast] using h
    exact .inr ⟨_, (List.dropLast_append_getLast? _ hlast).symm⟩

theorem counted_dropLast_of_endsOpen {p : FilePath} (h : p.endsOpen = true) :
    counted p.pieces.dropLast = counted p.pieces := by
  rcases endsOpen_cases h with ⟨hnil, -⟩ | ⟨init, hinit⟩
  · rw [hnil]; rfl
  · have hidle : counted [""] = [] := counted_of_idle (by simp [isIdle])
    rw [hinit, List.dropLast_concat, counted_append, hidle, List.append_nil]

/-- Pieces that take the place of an empty last one leave what comes first as it was. -/
theorem head?_dropLast_append {p q : FilePath} (h : p.endsOpen = true) (hq : q.IsInner) :
    (⟨p.rooted, p.pieces.dropLast ++ q.pieces⟩ : FilePath).head? = p.head? := by
  rcases endsOpen_cases h with ⟨-, hroot⟩ | ⟨init, hinit⟩
  · simp [head?, hroot]
  · rw [head?, head?, hinit, List.dropLast_concat]
    cases init with
    -- only a path whose one piece is empty loses its first piece
    | nil => simp [hq.noDot]
    | cons x xs => rfl

theorem head?_append {p : FilePath} (h : p.pieces ≠ []) (qs : List String) :
    (⟨p.rooted, p.pieces ++ qs⟩ : FilePath).head? = p.head? := by
  rw [head?, head?, List.head?_append_of_ne_nil _ h]

/-- Pieces that count as those of two paths do, behind what comes before the first. -/
theorem components_of_counted {p q : FilePath} {ps qs : List String} (hq : q.IsInner)
    (hps : counted ps = counted p.pieces) (hqs : counted qs = counted q.pieces)
    (hhead : (⟨p.rooted, ps ++ qs⟩ : FilePath).head? = p.head?) :
    (⟨p.rooted, ps ++ qs⟩ : FilePath).components = p.components ++ q.components := by
  rw [components_eq, components_eq, hq.components, hhead, counted_append, hps, hqs, List.append_assoc]

theorem components_join {p q : FilePath} (hq : q.IsInner) :
    (p.join q).components = p.components ++ q.components := by
  rw [join, if_neg (by simp [hq.unrooted])]
  split
  next hopen =>
    split
    next hempty =>
      rw [hq.components, List.isEmpty_iff.1 hempty, counted, List.filterMap_nil, List.append_nil]
    next =>
      exact components_of_counted hq (counted_dropLast_of_endsOpen hopen) rfl
        (head?_dropLast_append hopen hq)
  next hclosed =>
    split
    next hempty =>
      have hnil : p.pieces = [] := List.isEmpty_iff.1 hempty
      have hroot : p.rooted = false := by simpa [endsOpen, hnil] using hclosed
      simp [components_eq p, hnil, head?, hroot, counted]
    next hnonempty =>
      have hne : p.pieces ≠ [] := by simpa using hnonempty
      refine components_of_counted hq rfl ?_ (head?_append hne _)
      split
      next hempty =>
        rw [List.isEmpty_iff.1 hempty]
        exact counted_of_idle (by simp [isIdle])
      next => rfl

/-- What is joined to a path is how the path ends. -/
theorem suffix_join (p : FilePath) {q : FilePath} (hr : q.rooted = false) (hne : q.pieces ≠ []) :
    q.pieces <:+ (p.join q).pieces := by
  have he : q.pieces.isEmpty = false := by simpa using hne
  rw [join, if_neg (by simp [hr]), he]
  split
  · exact List.suffix_append ..
  · split
    · exact List.suffix_rfl
    · exact List.suffix_append ..

theorem components_child {p : FilePath} {name : String} (h : IsPlain name) :
    (p.child name).components = p.components ++ [.name name] := by
  have hinner := isInner_of_isPlain h
  rw [child, components_join hinner, hinner.components, ofString_of_isPlain h]
  simp [counted, componentOf?_of_isPlain h]

theorem components_withFileName {p : FilePath} {old : String} (h : p.fileName? = some old)
    {name : String} (hname : (ofString name).IsInner) :
    (p.withFileName name).components =
      p.components.dropLast ++ (ofString name).components := by
  obtain ⟨q, hq⟩ := exists_parent?_of_fileName? h
  rw [withFileName, h, hq]
  show (q.join (ofString name)).components = _
  rw [components_join hname, components_of_parent? hq]

/-- With another name at its end a path ends as the name does. -/
theorem getLast?_withFileName {p : FilePath} {old : String} (h : p.fileName? = some old) {name : String}
    (hr : (ofString name).rooted = false) (hne : (ofString name).pieces ≠ []) :
    (p.withFileName name).pieces.getLast? = (ofString name).pieces.getLast? := by
  obtain ⟨q, hq⟩ := exists_parent?_of_fileName? h
  rw [withFileName, h, hq]
  show (q.join (ofString name)).pieces.getLast? = _
  obtain ⟨init, hinit⟩ := suffix_join q hr hne
  rw [← hinit, List.getLast?_append_of_ne_nil _ hne]

/-- A name that is added to a path is its last piece. -/
theorem exists_child_eq {name : String} (h : IsPlain name) (p : FilePath) : ∃ above,
    p.child name = ⟨p.rooted, above ++ [name]⟩ ∧ above <+: p.pieces ∧
      counted above = counted p.pieces := by
  rw [child, ofString_of_isPlain h, join]
  simp only [Bool.false_eq_true, if_false, List.isEmpty_cons]
  split
  next hopen => exact ⟨_, rfl, List.dropLast_prefix _, counted_dropLast_of_endsOpen hopen⟩
  next hclosed =>
    split
    next hempty =>
      have hnil : p.pieces = [] := by simpa using hempty
      have hr : p.rooted = false := by simpa [endsOpen, hnil] using hclosed
      exact ⟨[], by rw [hr]; rfl, by rw [hnil], by rw [hnil]⟩
    next => exact ⟨p.pieces, rfl, List.prefix_rfl, rfl⟩

theorem join_concat {r : Bool} {above : List String} {name : String} (hn : name ≠ "") {q : FilePath}
    (hr : q.rooted = false) (hne : q.pieces ≠ []) :
    (⟨r, above ++ [name]⟩ : FilePath).join q = ⟨r, above ++ name :: q.pieces⟩ := by
  have hclosed : (⟨r, above ++ [name]⟩ : FilePath).endsOpen = false := by
    rw [endsOpen]; simp [hn]
  have hempty : q.pieces.isEmpty = false := by simpa using hne
  rw [join, hr, hclosed, hempty]
  simp

/-! ### Relative paths -/

theorem counted_dropWhile (ps : List String) : counted (ps.dropWhile isIdle) = counted ps := by
  conv_rhs => rw [← List.takeWhile_append_dropWhile (p := isIdle) (l := ps)]
  rw [counted_append, counted_of_idle (fun s hs => List.mem_takeWhile_imp hs), List.nil_append]

theorem counted_dropCounted : ∀ (n : Nat) (ps : List String),
    counted (dropCounted n ps) = (counted ps).drop n
  | 0, ps => by rw [dropCounted, counted_dropWhile, List.drop_zero]
  | n + 1, [] => by simp [dropCounted, counted]
  | n + 1, piece :: rest => by
    rw [dropCounted]
    split
    next h =>
      rw [counted_dropCounted (n + 1) rest]
      simp [counted, componentOf?_of_isIdle h]
    next h =>
      rw [counted_dropCounted n rest]
      cases hc : componentOf? piece with
      | none => exact absurd (isIdle_iff_componentOf?.2 hc) h
      | some c => simp [counted, hc]

/-- What is dropped counts as many times as it is asked for. -/
theorem exists_append_dropCounted : ∀ (n : Nat) (ps : List String),
    ∃ dropped, ps = dropped ++ dropCounted n ps ∧ counted dropped = (counted ps).take n
  | 0, ps => ⟨ps.takeWhile isIdle, by rw [dropCounted, List.takeWhile_append_dropWhile],
      counted_of_idle fun _ hs => List.mem_takeWhile_imp hs⟩
  | n + 1, [] => ⟨[], rfl, rfl⟩
  | n + 1, piece :: rest => by
    rw [dropCounted]
    split
    next h =>
      obtain ⟨dropped, hps, hc⟩ := exists_append_dropCounted (n + 1) rest
      have hnone := componentOf?_of_isIdle h
      exact ⟨piece :: dropped, congrArg (piece :: ·) hps, by
        rw [counted_cons_none hnone, counted_cons_none hnone, hc]⟩
    next h =>
      obtain ⟨dropped, hps, hc⟩ := exists_append_dropCounted n rest
      cases hp : componentOf? piece with
      | none => exact absurd (isIdle_iff_componentOf?.2 hp) h
      | some c => exact ⟨piece :: dropped, congrArg (piece :: ·) hps, by
          rw [counted_cons_some hp, counted_cons_some hp, hc, List.take_succ_cons]⟩

theorem head?_dropCounted : ∀ (n : Nat) (ps : List String),
    (dropCounted n ps).head? ≠ some "."
  | 0, ps => by
    intro h
    have := List.head?_dropWhile_not isIdle ps
    rw [dropCounted] at h
    rw [h] at this
    simp [isIdle] at this
  | _ + 1, [] => by simp [dropCounted]
  | n + 1, piece :: rest => by
    rw [dropCounted]
    split
    · exact head?_dropCounted (n + 1) rest
    · exact head?_dropCounted n rest

theorem head?_of_prefix {ps qs : List String} (h : ps <+: qs) (hq : qs.head? ≠ some ".") :
    ps.head? ≠ some "." := by
  obtain ⟨tail, rfl⟩ := h
  cases ps with
  | nil => simp
  | cons x xs => simpa using hq

/-- What is left behind a base that has components. -/
theorem relativeTo?_eq_some {p base rel : FilePath} (hb : base.components ≠ [])
    (h : p.relativeTo? base = some rel) :
    rel.IsInner ∧ p.components = base.components ++ rel.components := by
  rw [relativeTo?] at h
  simp only at h
  split at h
  next hpre =>
    rw [if_neg (by simpa using hb)] at h
    cases h
    have hinner : IsInner ⟨false, dropIdle (dropCounted (base.components.length -
        p.head?.toList.length) p.pieces)⟩ :=
      ⟨rfl, head?_of_prefix (prefix_dropIdle _) (head?_dropCounted _ _)⟩
    refine ⟨hinner, ?_⟩
    obtain ⟨rest, hrest⟩ := List.isPrefixOf_iff_prefix.1 hpre
    rw [hinner.components, counted_dropIdle, counted_dropCounted]
    have hlen : p.head?.toList.length ≤ base.components.length := by
      have : p.head?.toList.length ≤ 1 := by cases p.head? <;> simp
      have : 0 < base.components.length := List.length_pos_iff.2 hb
      omega
    have hdrop : (counted p.pieces).drop (base.components.length - p.head?.toList.length) = rest := by
      have := congrArg (List.drop base.components.length) hrest
      rw [List.drop_left, components_eq p, List.drop_append, List.drop_of_length_le hlen,
        List.nil_append] at this
      exact this.symm
    rw [hdrop, hrest]
  next => cases h

/-- What is left of a path behind a base is a part of it as it is written. -/
theorem pieces_of_relativeTo? {p base rel : FilePath} (hb : base.components ≠ [])
    (h : p.relativeTo? base = some rel) : ∃ before after,
      p.pieces = before ++ rel.pieces ++ after ∧ counted before = counted base.pieces ∧
      (rel.pieces ≠ [] → ∃ init last, rel.pieces = init ++ [last] ∧ isIdle last = false) := by
  rw [relativeTo?] at h
  simp only at h
  split at h
  next hpre =>
    rw [if_neg (by simpa using hb)] at h
    cases h
    have hhead : p.head?.toList.length ≤ base.components.length := by
      have : p.head?.toList.length ≤ 1 := by cases p.head? <;> simp
      have : 0 < base.components.length := List.length_pos_iff.2 hb
      omega
    obtain ⟨before, hbefore, hc⟩ := exists_append_dropCounted
      (base.components.length - p.head?.toList.length) p.pieces
    obtain ⟨after, hafter⟩ := prefix_dropIdle
      (dropCounted (base.components.length - p.head?.toList.length) p.pieces)
    refine ⟨before, after, by rw [List.append_assoc, hafter, ← hbefore], ?_,
      exists_of_dropIdle_ne_nil⟩
    have hbase : base.components = p.head?.toList ++ counted before := by
      have htake := List.prefix_iff_eq_take.1 (List.isPrefixOf_iff_prefix.1 hpre)
      rw [components_eq p, List.take_append, List.take_of_length_le hhead] at htake
      rw [hc]; exact htake
    rw [counted_eq_filter, hbase, List.filter_append, filter_head?, filter_counted, List.nil_append]
  next => cases h

theorem exists_relativeTo? {p base : FilePath} (h : base.components <+: p.components) :
    ∃ rel, p.relativeTo? base = some rel := by
  rw [relativeTo?]
  simp only
  rw [if_pos (List.isPrefixOf_iff_prefix.2 h)]
  split <;> exact ⟨_, rfl⟩

/-- A path that starts with the components of a base goes on from there with what is left. -/
theorem exists_relativeTo?_append {p base : FilePath} (h : base.components <+: p.components) :
    ∃ rel, p.relativeTo? base = some rel ∧ p.components = base.components ++ rel.components := by
  obtain ⟨rel, hrel⟩ := exists_relativeTo? h
  refine ⟨rel, hrel, ?_⟩
  by_cases hb : base.components = []
  · rw [relativeTo?, hb] at hrel
    obtain rfl : (⟨p.rooted, p.tidyEnd⟩ : FilePath) = rel := by simpa using hrel
    rw [hb, components_tidyEnd, List.nil_append]
  · exact (relativeTo?_eq_some hb hrel).2

/-! ### Paths around a path -/

theorem prefix_of_mem_go : ∀ (n : Nat) (p : FilePath) {a : FilePath}, a ∈ ancestors.go n p →
    a.components <+: p.components
  | 0, p, a, h => by
    rw [ancestors.go, List.mem_singleton] at h; rw [h]
  | n + 1, p, a, h => by
    rw [ancestors.go] at h
    split at h
    · rw [List.mem_singleton] at h; rw [h]
    · next q hq =>
      rcases List.mem_cons.1 h with rfl | h
      · exact List.prefix_rfl
      · refine (prefix_of_mem_go n q h).trans ?_
        rw [components_of_parent? hq]; exact List.dropLast_prefix _

/-- What lies properly around a path. -/
theorem prefix_of_mem_ancestors {p a : FilePath} (h : a ∈ p.ancestors.drop 1) :
    a.components <+: p.components.dropLast := by
  rw [ancestors, ancestors.go] at h
  split at h
  · simp at h
  · next q hq =>
    rw [List.drop_one, List.tail_cons] at h
    have := prefix_of_mem_go _ q h
    rwa [components_of_parent? hq] at this

theorem pieces_of_mem_go : ∀ (n : Nat) (p : FilePath) {a : FilePath}, a ∈ ancestors.go n p →
    a.rooted = p.rooted ∧ a.pieces <+: p.pieces
  | 0, p, a, h => by
    rw [ancestors.go, List.mem_singleton] at h; rw [h]; exact ⟨rfl, List.prefix_rfl⟩
  | n + 1, p, a, h => by
    rw [ancestors.go] at h
    split at h
    · rw [List.mem_singleton] at h; rw [h]; exact ⟨rfl, List.prefix_rfl⟩
    · next q hq =>
      rcases List.mem_cons.1 h with rfl | h
      · exact ⟨rfl, List.prefix_rfl⟩
      · obtain ⟨hr, hpre⟩ := pieces_of_mem_go n q h
        exact ⟨hr.trans (rooted_of_parent? hq), hpre.trans (prefix_of_parent? hq)⟩

theorem pieces_of_mem_ancestors {p a : FilePath} (h : a ∈ p.ancestors.drop 1) :
    a.rooted = p.rooted ∧ a.pieces <+: p.pieces :=
  pieces_of_mem_go _ p (List.mem_of_mem_drop h)

end TypeGen.Store.FilePath
