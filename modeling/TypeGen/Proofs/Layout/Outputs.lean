import TypeGen.Proofs.Layout.Tracing

/-!
Names of outputs. A generated file is never named like a spec unless its extension is; and a header
is never named like a source unless its extension says so.
-/

namespace TypeGen.Project

open TypeGen.Spec TypeGen.Store TypeGen.Store.FilePath TypeGen.Text TypeGen.Toml

theorem suffix_of_kindOf? {p : FilePath} {k : Kind} {name : String} (h : kindOf? p = some k)
    (hn : p.fileName? = some name) : k.suffix.toList <:+ name.toList := by
  obtain ⟨stem, -, hstem⟩ := kindOf?_eq_some.1 h
  rw [Option.some.inj (hn.symm.trans hstem), String.toList_append]
  exact List.suffix_append ..

/-- No source is taken for a spec. -/
theorem kindOf?_of_source {p : FilePath} {stem : String}
    (h : p.fileName? = some (stem ++ sourceSuffix)) : kindOf? p = none := by
  cases hk : kindOf? p with
  | none => rfl
  | some k =>
    have hsource : sourceSuffix.toList <:+ (stem ++ sourceSuffix).toList :=
      ⟨stem.toList, by rw [String.toList_append]⟩
    have hor := List.suffix_or_suffix_of_suffix (suffix_of_kindOf? hk h) hsource
    revert hor; cases k <;> decide

/-- Extensions of accepted configurations start with a dot. -/
theorem dotted_of_parseConfig {text file : String} {c : Config} (h : parseConfig text file = .ok c) :
    c.headerExtension.toList.head? = some '.' := by
  have hcheck : ∀ {ext : Option Located} {s : String}, checkExtension file ext = .ok s →
      s.toList.head? = some '.' := fun {ext s} hs => by
    cases ext with
    | none => cases hs; decide
    | some located =>
      rw [checkExtension] at hs
      split at hs
      next hext =>
        cases hs
        rw [isExtension, Bool.and_eq_true, decide_eq_true_eq] at hext
        exact hext.1
      next => cases hs
  rw [parseConfig] at h
  cases hraw : decode .config RawConfig.ofTable? text file with
  | error e => rw [hraw] at h; cases h
  | ok raw =>
    rw [hraw] at h
    change raw.check file = .ok c at h
    rw [RawConfig.check] at h
    cases hext : checkExtension file raw.headerExtension with
    | error e => rw [hext] at h; cases h
    | ok s => rw [hext] at h; cases h; exact hcheck hext

namespace Layout

/-- The extension of headers does not end like the name of a spec. -/
def KeepsSpecs (l : Layout) : Prop := ∀ k : Kind, ¬ k.suffix.toList <:+ l.config.headerExtension.toList

instance (l : Layout) : Decidable l.KeepsSpecs :=
  decidable_of_iff (∀ k ∈ Kind.all, ¬ k.suffix.toList <:+ l.config.headerExtension.toList)
    ⟨fun h k => h k (mem_kinds k), fun h k _ => h k⟩

namespace IsHeaderOf

variable {l : Layout} {stem : String} {k : Kind} {spec header : FilePath}

/-- The name of a header is what its mark and extension end in. -/
theorem name_suffix (h : IsHeaderOf l stem k spec header) {name : String}
    (hn : header.fileName? = some name) : name.toList <:+ (stem ++ l.headerSuffix).toList := by
  obtain ⟨last, hlast, hlast'⟩ := h.ends.exists_fileName?
  rw [Option.some.inj (hn.symm.trans hlast')]
  exact suffix_of_getLast?_ofString (h.getLast? ▸ hlast)

/-- No header is taken for a spec. -/
theorem kindOf?_header (h : IsHeaderOf l stem k spec header) (hk : l.KeepsSpecs) :
    kindOf? header = none := by
  cases hkind : kindOf? header with
  | none => rfl
  | some j =>
    obtain ⟨name, hn, -⟩ := h.exists_fileName?
    have hending := (suffix_of_kindOf? hkind hn).trans (h.name_suffix hn)
    have hg : 'g' ∉ j.suffix.toList := by cases j <;> decide
    have hsplit : (stem ++ l.headerSuffix).toList =
        (stem.toList ++ ['.', 'd', 't']) ++ 'g' :: l.config.headerExtension.toList := by
      simp [headerSuffix, generatedMark, String.toList_append]
    exact absurd (suffix_of_notMem hg (hsplit ▸ hending)) (hk j)

theorem fileName?_source (h : IsHeaderOf l stem k spec header) (d : Disk) :
    ∃ stem', '/' ∉ stem'.toList ∧ (l.sourcePath d header).fileName? = some (stem' ++ sourceSuffix) := by
  obtain ⟨name, hn, hs⟩ := h.exists_fileName?
  have hstem : '/' ∉ ((l.generatedStem? header).getD "").toList :=
    noSlash_stem fun name' hn' => by rw [hn] at hn'; cases hn'; exact hs
  exact ⟨_, hstem, by rw [fileName?_eq_some, components_sourcePath hn hs, List.getLast?_concat]⟩

end IsHeaderOf

/-! ### Headers and sources -/

/-- Extensions with which headers are named neither like specs nor like sources. -/
structure NamesApart (l : Layout) : Prop where
  dotted : l.config.headerExtension.toList.head? = some '.'
  keepsSpecs : l.KeepsSpecs
  ne : l.config.headerExtension ≠ ".cc"
  noSource : ¬ sourceSuffix.toList <:+ l.config.headerExtension.toList

/-- Only `.cc` and what ends in the ending of sources makes a header look like a source. -/
theorem NamesApart.not_suffix {l : Layout} (h : l.NamesApart) (stem : String) :
    ¬ sourceSuffix.toList <:+ (stem ++ l.headerSuffix).toList := by
  intro hsource
  have hext : l.config.headerExtension.toList <:+ (stem ++ l.headerSuffix).toList :=
    ⟨(stem ++ generatedMark).toList, by simp [headerSuffix, String.toList_append]⟩
  rcases List.suffix_or_suffix_of_suffix hsource hext with hs | hs
  · exact h.noSource hs
  · have hdot := h.dotted
    have hne : l.config.headerExtension.toList ≠ ".cc".toList := fun h0 => h.ne (String.toList_inj.1 h0)
    have hno := h.noSource
    rw [← List.mem_tails] at hs
    generalize l.config.headerExtension.toList = ext at *
    have htails : sourceSuffix.toList.tails = [".dtg.cc".toList, "dtg.cc".toList, "tg.cc".toList,
      "g.cc".toList, ".cc".toList, "cc".toList, "c".toList, []] := by decide
    rw [htails] at hs
    simp only [List.mem_cons, List.not_mem_nil, or_false] at hs
    rcases hs with rfl | rfl | rfl | rfl | rfl | rfl | rfl | rfl
    · exact hno (List.suffix_refl _)
    · cases hdot
    · cases hdot
    · cases hdot
    · exact hne rfl
    · cases hdot
    · cases hdot
    · cases hdot

/-- No header is named like a source. -/
theorem IsHeaderOf.fileName?_ne {l : Layout} {stem : String} {k : Kind} {spec header : FilePath}
    (h : IsHeaderOf l stem k spec header) (hl : l.NamesApart) (stem' : String) :
    header.fileName? ≠ some (stem' ++ sourceSuffix) := by
  intro hn
  have hsource : sourceSuffix.toList <:+ (stem' ++ sourceSuffix).toList :=
    ⟨stem'.toList, by rw [String.toList_append]⟩
  exact hl.not_suffix stem (hsource.trans (h.name_suffix hn))

end Layout

end TypeGen.Project
