import Mathlib.Data.List.DropRight
import Mathlib.Data.List.Infix
import Mathlib.Data.Set.List
import TypeGen.Proofs.Text.Splitting
import TypeGen.Store.FilePath

/-!
Components under the operations on paths. Only the components of a path say where it leads, so each
operation is described by what it does to them: a child adds one at the end, a parent drops one,
joining appends, a relative path is what is left behind a prefix. Pieces that count for nothing are
looked at here and nowhere else.
-/

namespace TypeGen.Store.FilePath

open TypeGen.Text

/-- The components of pieces alone. -/
def counted (pieces : List String) : List Component := pieces.filterMap componentOf?

theorem counted_append (ps qs : List String) : counted (ps ++ qs) = counted ps ++ counted qs :=
  List.filterMap_append

theorem components_eq (p : FilePath) : p.components = p.head?.toList ++ counted p.pieces := rfl

theorem componentOf?_of_isIdle {s : String} (h : isIdle s = true) : componentOf? s = none := by
  simp [componentOf?, h]

theorem isIdle_iff_componentOf? {s : String} : isIdle s = true ↔ componentOf? s = none := by
  refine ⟨componentOf?_of_isIdle, fun h => ?_⟩
  by_contra hs
  rw [componentOf?, if_neg hs] at h
  split at h <;> cases h

/-- A piece is the name that it stands for. -/
theorem componentOf?_eq_name {s name : String} (h : componentOf? s = some (.name name)) :
    s = name := by
  rw [componentOf?] at h
  split at h
  · cases h
  · split at h <;> cases h
    rfl

theorem counted_of_idle {ps : List String} (h : ∀ s ∈ ps, isIdle s = true) : counted ps = [] :=
  List.filterMap_eq_nil_iff.2 fun s hs => componentOf?_of_isIdle (h s hs)

/-- Pieces are names and ways back; what else there is among components is in front of them. -/
theorem mem_counted {c : Component} {ps : List String} (h : c ∈ counted ps) :
    c ≠ .root ∧ c ≠ .current := by
  obtain ⟨s, -, hs⟩ := List.mem_filterMap.1 h
  rw [componentOf?] at hs
  split at hs
  · cases hs
  · split at hs <;> cases hs <;> simp

/-- A piece is a name, two dots or idle. -/
theorem componentOf?_cases (piece : String) : (∃ n, componentOf? piece = some (.name n)) ∨
    componentOf? piece = some .parent ∨ componentOf? piece = none := by
  rw [componentOf?]
  split
  · exact .inr (.inr rfl)
  · split
    · exact .inr (.inl rfl)
    · exact .inl ⟨_, rfl⟩

/-- Pieces that do not lead back lead on by names. -/
theorem exists_names_of_counted {ps : List String} (h : .parent ∉ counted ps) :
    ∃ names : List String, counted ps = names.map .name := by
  have hnames : counted ps ∈ Set.range (List.map Component.name) := by
    rw [Set.range_list_map]
    intro c hc
    obtain ⟨hroot, hcurrent⟩ := mem_counted hc
    cases c with
    | root => exact absurd rfl hroot
    | current => exact absurd rfl hcurrent
    | parent => exact absurd hc h
    | name s => exact ⟨s, rfl⟩
  obtain ⟨names, hnames⟩ := hnames
  exact ⟨names, hnames.symm⟩

theorem counted_cons_some {piece : String} {c : Component} (h : componentOf? piece = some c)
    (rest : List String) : counted (piece :: rest) = c :: counted rest :=
  List.filterMap_cons_some h

theorem counted_cons_none {piece : String} (h : componentOf? piece = none)
    (rest : List String) : counted (piece :: rest) = counted rest :=
  List.filterMap_cons_none h

theorem mem_head? {c : Component} {p : FilePath} (h : c ∈ p.head?.toList) :
    c = .root ∧ p.rooted = true ∨ c = .current ∧ p.rooted = false := by
  rw [Option.mem_toList, head?] at h
  split at h
  next hr => exact .inl ⟨(Option.some.inj h).symm, hr⟩
  next hr =>
    split at h
    · exact .inr ⟨(Option.some.inj h).symm, by simpa using hr⟩
    · cases h

theorem filter_head? (p : FilePath) :
    p.head?.toList.filter (fun c => c ≠ .root ∧ c ≠ .current) = [] :=
  List.filter_eq_nil_iff.2 fun c hc => by rcases mem_head? hc with ⟨rfl, -⟩ | ⟨rfl, -⟩ <;> simp

theorem filter_counted (ps : List String) :
    (counted ps).filter (fun c => c ≠ .root ∧ c ≠ .current) = counted ps :=
  List.filter_eq_self.2 fun c hc => by simpa using mem_counted hc

theorem counted_eq_filter (p : FilePath) :
    counted p.pieces = p.components.filter fun c => c ≠ .root ∧ c ≠ .current := by
  rw [components_eq, List.filter_append, filter_head?, filter_counted, List.nil_append]

theorem counted_congr {p q : FilePath} (h : p.components = q.components) :
    counted p.pieces = counted q.pieces := by rw [counted_eq_filter, counted_eq_filter, h]

theorem rooted_iff {p : FilePath} : p.rooted = true ↔ Component.root ∈ p.components := by
  rw [components_eq, List.mem_append]
  refine ⟨fun h => .inl (by simp [head?, h]), fun h => ?_⟩
  rcases h with h | h
  · rcases mem_head? h with ⟨-, hr⟩ | ⟨hc, -⟩
    · exact hr
    · cases hc
  · exact absurd rfl (mem_counted h).1

theorem rooted_congr {p q : FilePath} (h : p.components = q.components) : p.rooted = q.rooted := by
  rw [Bool.eq_iff_iff, rooted_iff, rooted_iff, h]

/-! ### Names -/

/-- Texts that are one component of a path as they stand. -/
structure IsPlain (s : String) : Prop where
  noSlash : '/' ∉ s.toList
  active : isIdle s = false
  notParent : s ≠ ".."

theorem componentOf?_of_isPlain {s : String} (h : IsPlain s) : componentOf? s = some (.name s) := by
  simp [componentOf?, h.active, h.notParent]

/-- The pieces that are no names are short. -/
theorem isPlain_of_length {s : String} (hs : '/' ∉ s.toList) (h : 2 < s.length) : IsPlain s := by
  have hne : ∀ t : String, t.length ≤ 2 → s ≠ t := fun t ht h0 => by rw [h0] at h; omega
  have h0 := hne "" (by decide)
  have h1 := hne "." (by decide)
  exact ⟨hs, by simp [isIdle, h0, h1], hne ".." (by decide)⟩

/-- What is written between slashes has none in it. -/
theorem noSlash_of_mem_piecesOf {cs : List Char} {s : String} (h : s ∈ piecesOf cs) :
    '/' ∉ s.toList := by
  rw [piecesOf] at h
  split at h
  · cases h
  · obtain ⟨piece, hp, rfl⟩ := List.mem_map.1 h
    rw [String.toList_ofList]; exact notMem_of_mem_splitAt hp

theorem noSlash_of_mem_ofString {t s : String} (h : s ∈ (ofString t).pieces) : '/' ∉ s.toList := by
  rw [ofString] at h
  split at h <;> exact noSlash_of_mem_piecesOf h

/-- Paths that a text can stand for: no piece has a slash in it. -/
def IsWritten (p : FilePath) : Prop := ∀ s ∈ p.pieces, '/' ∉ s.toList

theorem isWritten_ofString (t : String) : (ofString t).IsWritten := fun _ => noSlash_of_mem_ofString

/-- A plain name is written as itself. -/
theorem ofString_of_noSlash {s : String} (h : '/' ∉ s.toList) (hs : s ≠ "") :
    ofString s = ⟨false, [s]⟩ := by
  have hne : s.toList ≠ [] := fun h0 => hs (String.toList_eq_nil_iff.1 h0)
  rw [ofString]
  split
  next cs hcs => rw [hcs] at h; simp at h
  next =>
    rw [piecesOf, if_neg (by simpa using hne), splitAt_of_notMem h]
    simp

theorem ofString_of_isPlain {s : String} (h : IsPlain s) : ofString s = ⟨false, [s]⟩ :=
  ofString_of_noSlash h.noSlash (fun h0 => by have := h.active; simp [isIdle, h0] at this)

/-- What is put in front of a text goes into its first piece. -/
theorem ofString_append_eq {s e : String} (hs : '/' ∉ s.toList) (hne : s ≠ "") {first : List Char}
    {rest : List (List Char)} (he : splitAt '/' e.toList = first :: rest) :
    ofString (s ++ e) = ⟨false, String.ofList (s.toList ++ first) :: rest.map String.ofList⟩ := by
  have hsplit : splitAt '/' (s ++ e).toList = (s.toList ++ first) :: rest := by
    rw [String.toList_append]; exact splitAt_append he hs
  obtain ⟨x, xs, hx⟩ := List.exists_cons_of_ne_nil fun h0 => hne (String.toList_eq_nil_iff.1 h0)
  have hxs : x ≠ '/' := fun h0 => hs (by simp [hx, h0])
  rw [ofString]
  split
  next cs hcs => rw [String.toList_append, hx] at hcs; cases hcs; exact absurd rfl hxs
  next => rw [piecesOf, if_neg (by simp [String.toList_append, hx]), hsplit]; rfl

/-- A text with a slash in it is read as more pieces than one, the first up to the slash. -/
theorem ofString_append {s e : String} (hs : '/' ∉ s.toList) (hne : s ≠ "") :
    ∃ first rest, ofString (s ++ e) = ⟨false, first :: rest⟩ ∧ '/' ∉ first.toList ∧
      s.length ≤ first.length ∧ ('/' ∈ e.toList → rest ≠ []) := by
  cases he : splitAt '/' e.toList with
  | nil => exact absurd he (splitAt_ne_nil _ _)
  | cons first rest =>
    refine ⟨_, _, ofString_append_eq hs hne he, ?_, ?_, ?_⟩
    · have hfirst : '/' ∉ first := notMem_of_mem_splitAt (by rw [he]; exact List.mem_cons_self ..)
      rw [String.toList_ofList, List.mem_append, not_or]; exact ⟨hs, hfirst⟩
    · rw [← String.length_toList, ← String.length_toList, String.toList_ofList, List.length_append]
      omega
    · exact fun hslash => by simpa using splitAt_tail_ne_nil hslash he

/-- A text ends in its last piece. -/
theorem suffix_of_getLast?_ofString {t last : String} (h : (ofString t).pieces.getLast? = some last) :
    last.toList <:+ t.toList := by
  have hpieces : ∀ cs : List Char, (piecesOf cs).getLast? = some last → last.toList <:+ cs :=
    fun cs hcs => by
      rw [piecesOf] at hcs
      split at hcs
      · cases hcs
      · rw [List.getLast?_map] at hcs
        obtain ⟨piece, hpiece, rfl⟩ := Option.map_eq_some_iff.1 hcs
        rw [String.toList_ofList]
        exact suffix_of_getLast?_splitAt hpiece
  rw [ofString] at h
  split at h
  next cs hcs => rw [hcs]; exact (hpieces cs h).trans (List.suffix_cons _ _)
  next => exact hpieces _ h

/-! ### Pieces that count for nothing -/

theorem counted_dropIdle (ps : List String) : counted (dropIdle ps) = counted ps := by
  have htail : ∀ s ∈ ps.rtakeWhile isIdle, isIdle s = true := fun s hs =>
    List.mem_rtakeWhile_imp hs
  conv_rhs => rw [← List.rdropWhile_append_rtakeWhile (p := isIdle) (l := ps)]
  rw [counted_append, counted_of_idle htail, List.append_nil]; rfl

theorem prefix_dropIdle (ps : List String) : dropIdle ps <+: ps := List.rdropWhile_prefix isIdle ps

/-- What is left, if anything, ends in a piece that counts. -/
theorem exists_of_dropIdle_ne_nil {ps : List String} (h : dropIdle ps ≠ []) :
    ∃ init last, dropIdle ps = init ++ [last] ∧ isIdle last = false := by
  have hlast : ¬ isIdle ((dropIdle ps).getLast h) = true := List.rdropWhile_last_not isIdle ps h
  exact ⟨_, _, (List.dropLast_append_getLast h).symm, by simpa using hlast⟩

theorem counted_concat (init : List String) {last : String} (h : isIdle last = false) :
    ∃ c, counted (init ++ [last]) = counted init ++ [c] := by
  cases hc : componentOf? last with
  | none => rw [isIdle_iff_componentOf?.2 hc] at h; cases h
  | some c => exact ⟨c, by rw [counted_append]; simp [counted, hc]⟩

theorem head?_eq_none {p : FilePath} (hr : p.rooted = false) (hd : p.pieces.head? ≠ some ".") :
    p.head? = none := by simp [head?, hr, hd]

theorem components_of_relative {p : FilePath} (hr : p.rooted = false)
    (hd : p.pieces.head? ≠ some ".") : p.components = counted p.pieces := by
  rw [components_eq, head?_eq_none hr hd]; rfl

/-! ### Parents -/

theorem prefix_tidyEnd (p : FilePath) : p.tidyEnd <+: p.pieces := by
  rw [tidyEnd]
  split
  next dot rest _ hp => rw [hp]; exact (List.cons_prefix_cons).2 ⟨rfl, prefix_dropIdle rest⟩
  next => exact prefix_dropIdle _

theorem counted_tidyEnd (p : FilePath) : counted p.tidyEnd = counted p.pieces := by
  rw [tidyEnd]
  split
  next dot rest _ hp =>
    rw [hp, ← List.singleton_append, ← List.singleton_append (l := rest), counted_append,
      counted_append, counted_dropIdle]
  next => exact counted_dropIdle _

theorem tidyEnd_of_current {rest : List String} {p : FilePath} (hr : p.rooted = false)
    (hp : p.pieces = "." :: rest) : p.tidyEnd = "." :: dropIdle rest := by
  simp [tidyEnd, head?, hr, hp]

theorem tidyEnd_of_ne_current {p : FilePath} (h : p.head? ≠ some .current) :
    p.tidyEnd = dropIdle p.pieces := by
  rw [tidyEnd]
  split
  next h0 _ => exact absurd h0 h
  next => rfl

theorem head?_ne_current {p : FilePath} (hr : p.rooted = true) : p.head? ≠ some .current := by
  simp [head?, hr]

theorem head?_ne_of_prefix {p : FilePath} {ps : List String} (hps : ps <+: p.pieces)
    (hr : p.rooted = false) (hd : p.pieces.head? ≠ some ".") :
    (⟨p.rooted, ps⟩ : FilePath).head? = p.head? := by
  obtain ⟨tail, htail⟩ := hps
  rw [head?_eq_none hr hd]
  refine head?_eq_none hr ?_
  cases ps with
  | nil => simp
  | cons x xs => rw [← htail] at hd; simpa using hd

theorem components_tidyEnd (p : FilePath) :
    (⟨p.rooted, p.tidyEnd⟩ : FilePath).components = p.components := by
  have hhead : (⟨p.rooted, p.tidyEnd⟩ : FilePath).head? = p.head? := by
    cases hr : p.rooted with
    | true => simp [head?, hr]
    | false =>
      by_cases hd : p.pieces.head? = some "."
      · obtain ⟨rest, hp⟩ : ∃ rest, p.pieces = "." :: rest := by
          cases hps : p.pieces with
          | nil => rw [hps] at hd; cases hd
          | cons x xs => rw [hps] at hd; cases hd; exact ⟨xs, rfl⟩
        simp [head?, hr, hp, tidyEnd_of_current hr hp]
      · exact hr ▸ head?_ne_of_prefix p.prefix_tidyEnd hr hd
  rw [components_eq, components_eq, hhead, counted_tidyEnd]

/-- Taking the last piece off a tidy path takes off the last component. -/
theorem components_dropLast_tidyEnd {p : FilePath} (h : p.tidyEnd ≠ []) :
    (⟨p.rooted, p.tidyEnd.dropLast⟩ : FilePath).components = p.components.dropLast := by
  by_cases hc : p.head? = some .current
  · obtain ⟨hr, rest, hp⟩ : p.rooted = false ∧ ∃ rest, p.pieces = "." :: rest := by
      cases hr : p.rooted with
      | true => exact absurd hc (head?_ne_current hr)
      | false =>
        cases hps : p.pieces with
        | nil => simp [head?, hr, hps] at hc
        | cons x xs => simp [head?, hr, hps] at hc; exact ⟨rfl, xs, by rw [hc]⟩
    rw [tidyEnd_of_current hr hp, ← p.components_tidyEnd, tidyEnd_of_current hr hp]
    by_cases hrest : dropIdle rest = []
    · simp [hrest, components, head?, hr, componentOf?, isIdle]
    · obtain ⟨init, last, hil, hlast⟩ := exists_of_dropIdle_ne_nil hrest
      obtain ⟨c, hcount⟩ := counted_concat ("." :: init) hlast
      rw [hil, ← List.cons_append, List.dropLast_concat, components_eq, components_eq, hcount,
        ← List.append_assoc, List.dropLast_concat]
      simp [head?, hr]
  · rw [tidyEnd_of_ne_current hc] at h ⊢
    obtain ⟨init, last, hil, hlast⟩ := exists_of_dropIdle_ne_nil h
    obtain ⟨c, hcount⟩ := counted_concat init hlast
    have hpre : init <+: p.pieces :=
      (List.prefix_append init [last]).trans (hil ▸ prefix_dropIdle p.pieces)
    have hhead : (⟨p.rooted, init⟩ : FilePath).head? = p.head? := by
      cases hr : p.rooted with
      | true => simp [head?, hr]
      | false =>
        have hd : p.pieces.head? ≠ some "." := fun hd => hc (by simp [head?, hr, hd])
        exact hr ▸ head?_ne_of_prefix hpre hr hd
    rw [hil, List.dropLast_concat, components_eq, components_eq, hhead, ← counted_dropIdle p.pieces,
      hil, hcount, ← List.append_assoc, List.dropLast_concat]

theorem components_of_parent? {p q : FilePath} (h : p.parent? = some q) :
    q.components = p.components.dropLast := by
  rw [parent?] at h
  split at h
  · cases h
  next ht =>
    cases h
    rw [components_tidyEnd (⟨p.rooted, p.tidyEnd.dropLast⟩ : FilePath)]
    exact components_dropLast_tidyEnd (by simpa using ht)

theorem rooted_of_parent? {p q : FilePath} (h : p.parent? = some q) : q.rooted = p.rooted := by
  rw [parent?] at h
  split at h <;> cases h
  rfl

theorem prefix_of_parent? {p q : FilePath} (h : p.parent? = some q) : q.pieces <+: p.pieces := by
  rw [parent?] at h
  split at h <;> cases h
  exact (prefix_tidyEnd _).trans ((List.dropLast_prefix _).trans p.prefix_tidyEnd)

theorem counted_of_parent?_eq_none {p : FilePath} (h : p.parent? = none) :
    counted p.pieces = [] := by
  rw [parent?] at h
  split at h
  next ht =>
    have hnil : p.tidyEnd = [] := by simpa using ht
    rw [← counted_tidyEnd, hnil]; rfl
  next => cases h

/-! ### The name at the end -/

theorem fileName?_eq_some {p : FilePath} {name : String} :
    p.fileName? = some name ↔ p.components.getLast? = some (.name name) := by
  rw [fileName?]
  split
  next s hs => simp [hs]
  next hs => exact ⟨nofun, fun h => absurd h (hs name)⟩

theorem fileName?_congr {p q : FilePath} (h : p.components = q.components) :
    p.fileName? = q.fileName? := by rw [fileName?, fileName?, h]

theorem components_of_fileName? {p : FilePath} {name : String} (h : p.fileName? = some name) :
    p.components = p.components.dropLast ++ [.name name] :=
  (List.dropLast_append_getLast? _ (fileName?_eq_some.1 h)).symm

theorem counted_of_parent? {p q : FilePath} {name : String} (hn : p.fileName? = some name)
    (hq : p.parent? = some q) : counted p.pieces = counted q.pieces ++ [.name name] := by
  rw [counted_eq_filter, components_of_fileName? hn, ← components_of_parent? hq,
    List.filter_append, ← counted_eq_filter]
  rfl

theorem exists_parent?_of_fileName? {p : FilePath} {name : String} (h : p.fileName? = some name) :
    ∃ q, p.parent? = some q := by
  cases hp : p.parent? with
  | some q => exact ⟨q, rfl⟩
  | none =>
    have hlast := fileName?_eq_some.1 h
    rw [components_eq, counted_of_parent?_eq_none hp, List.append_nil] at hlast
    rcases mem_head? (List.mem_of_getLast? hlast) with ⟨hc, -⟩ | ⟨hc, -⟩ <;> cases hc

/-- The name at the end of a written path has no slash in it. -/
theorem mem_pieces_of_fileName? {p : FilePath} {name : String} (h : p.fileName? = some name) :
    name ∈ p.pieces ∧ componentOf? name = some (.name name) := by
  have hmem : Component.name name ∈ p.components := List.mem_of_getLast? (fileName?_eq_some.1 h)
  rw [components_eq, List.mem_append] at hmem
  rcases hmem with hmem | hmem
  · rcases mem_head? hmem with ⟨hc, -⟩ | ⟨hc, -⟩ <;> cases hc
  · obtain ⟨piece, hpiece, hc⟩ := List.mem_filterMap.1 hmem
    rw [componentOf?] at hc
    split at hc
    · cases hc
    · split at hc
      · cases hc
      · cases hc
        next h1 h2 => exact ⟨hpiece, by simp [componentOf?, h1, h2]⟩

end TypeGen.Store.FilePath
