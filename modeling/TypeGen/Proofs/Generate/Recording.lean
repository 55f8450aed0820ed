import TypeGen.Proofs.Generate.Draft
import TypeGen.Proofs.Text.Json
import TypeGen.Proofs.Text.Splitting

/-!
Metadata that is read back. A comment that stands behind lines of which none is its tag is found and
read as it was written, whatever follows it; so both generated files tell of their spec unless its
name breaks out of the first comment.
-/

namespace TypeGen.Project

open TypeGen.Text

namespace Metadata

/-- The line of the object that holds the value. -/
def member (m : Metadata) : List Char :=
  ("  \"" ++ key ++ "\": ").toList ++ Json.encode m.generatedFrom.toList

theorem toList_json (m : Metadata) :
    m.json.toList = '\x7b' :: '\n' :: (m.member ++ ['\n', '\x7d']) := by
  simp [json, member, String.toList_append]

theorem toList_render (m : Metadata) (after : List Char) : m.render.toList ++ after =
    tag.toList ++ '\n' :: (['\x7b'] ++ '\n' :: (m.member ++ '\n' :: (['\x7d'] ++ '\n' ::
      (closing.toList ++ '\n' :: after)))) := by
  simp [render, toList_json, String.toList_append]

theorem notMem_member (m : Metadata) : '\n' ∉ m.member := by
  have hkey : '\n' ∉ ("  \"" ++ key ++ "\": ").toList := by decide
  rw [member, List.mem_append, not_or]
  exact ⟨hkey, Json.notMem_encode _⟩

/-- The line ends in the quote of the string, so nothing is dropped from it. -/
theorem dropReturn_member (m : Metadata) : dropReturn m.member = m.member := by
  have hlast : m.member.getLast? = some '"' := by
    rw [member, Json.encode, ← List.cons_append, ← List.append_assoc, List.getLast?_concat]
  rw [dropReturn, hlast]
  rfl

/-- The line starts with a quote behind its blanks. -/
theorem isLine_member (m : Metadata) : isLine closing m.member = false := by
  obtain ⟨rest, hrest⟩ : ∃ rest, m.member.dropWhile isBlank = '"' :: rest := ⟨_, rfl⟩
  refine decide_eq_false fun h => ?_
  have hprefix : trimEnd ('"' :: rest) <+: '"' :: rest := List.rdropWhile_prefix isBlank _
  rw [trim, hrest] at h
  rw [h] at hprefix
  exact absurd (List.cons_prefix_cons.1 hprefix).1 (by decide)

theorem ofJson?_json (m : Metadata) : ofJson? m.json.toList = some m := by
  have hkey : Json.skipSpace ('\n' :: (m.member ++ ['\n', '\x7d'])) = Json.encode key.toList ++
      (':' :: ' ' :: (Json.encode m.generatedFrom.toList ++ ['\n', '\x7d'])) := rfl
  have hvalue : Json.skipSpace (' ' :: (Json.encode m.generatedFrom.toList ++ ['\n', '\x7d'])) =
      Json.encode m.generatedFrom.toList ++ ['\n', '\x7d'] := rfl
  have hmembers : ∀ fuel, readMembers (fuel + 1) none ('\n' :: (m.member ++ ['\n', '\x7d'])) =
      some (m.generatedFrom, []) := fun fuel => by
    rw [readMembers, hkey, Json.readString_encode]
    have hcolon : Json.skipSpace (':' :: ' ' :: (Json.encode m.generatedFrom.toList ++
        ['\n', '\x7d'])) = ':' :: ' ' :: (Json.encode m.generatedFrom.toList ++ ['\n', '\x7d']) := rfl
    simp only [Option.bind_eq_bind, Option.bind_some, String.ofList_toList, hcolon, hvalue,
      Json.readString_encode, Option.map_some, if_true]
    rfl
  rw [toList_json, ofJson?, readValue]
  have hbrace : Json.skipSpace ('\x7b' :: '\n' :: (m.member ++ ['\n', '\x7d'])) =
    '\x7b' :: '\n' :: (m.member ++ ['\n', '\x7d']) := rfl
  simp only [hbrace, hmembers]
  rfl

/-- The lines of the comment, behind lines that end before it. -/
theorem lines_render {before : List Char} (hb : before = [] ∨ ∃ cs, before = cs ++ ['\n'])
    (m : Metadata) (after : List Char) : lines (before ++ (m.render.toList ++ after)) =
      lines before ++ (tag.toList :: ['\x7b'] :: m.member :: ['\x7d'] :: closing.toList :: lines after) := by
  have hrender : lines (m.render.toList ++ after) =
      tag.toList :: ['\x7b'] :: m.member :: ['\x7d'] :: closing.toList :: lines after := by
    have htag : '\n' ∉ tag.toList := by decide
    have hclosing : '\n' ∉ closing.toList := by decide
    have hopen : '\n' ∉ ['\x7b'] := by decide
    have hclose : '\n' ∉ ['\x7d'] := by decide
    rw [toList_render, lines_cons htag, lines_cons hopen, lines_cons m.notMem_member,
      lines_cons hclose, lines_cons hclosing, m.dropReturn_member]
    rfl
  rcases hb with rfl | ⟨cs, rfl⟩
  · rw [List.nil_append, hrender]; rfl
  · rw [List.append_assoc, List.singleton_append, lines_append_newline, hrender]

/-- A comment is read as it was written, whatever stands in its value and behind it. -/
theorem parse?_render {before : String} (hb : before = "" ∨ ∃ s, before = s ++ "\n")
    (hn : ∀ line ∈ lines before.toList, isLine tag line = false) (m : Metadata) (after : String) :
    parse? (before ++ m.render ++ after) = some m := by
  have hb' : before.toList = [] ∨ ∃ cs, before.toList = cs ++ ['\n'] := by
    rcases hb with rfl | ⟨s, rfl⟩
    · exact .inl rfl
    · exact .inr ⟨s.toList, by rw [String.toList_append]; rfl⟩
  have htag : isLine tag tag.toList = true := by decide
  have hopen : isLine closing ['\x7b'] = false := by decide
  have hclose : isLine closing ['\x7d'] = false := by decide
  have hclosing : isLine closing closing.toList = true := by decide
  rw [parse?, String.append_assoc, String.toList_append, String.toList_append,
    lines_render hb', List.dropWhile_append_of_pos fun line hline => by simp [hn line hline],
    List.dropWhile_cons_of_neg (by simp [htag])]
  simp only [List.takeWhile_cons, hopen, hclose, hclosing, m.isLine_member, Bool.not_false,
    Bool.not_true, if_true, Bool.false_eq_true, if_false]
  have hjson : ['\n'].intercalate [['\x7b'], m.member, ['\x7d']] = m.json.toList := by
    rw [toList_json]; simp [List.intercalate]
  rw [hjson, ofJson?_json]

/-- Metadata is read back from a file around its comment, whatever its value holds: quotes and line
feeds of the value do not end the line it is on, and a tag or an ending in it is no line. -/
theorem parse?_surrounded {before : String} (hb : before = "" ∨ ∃ s, before = s ++ "\n")
    (hn : ∀ line ∈ linesOfString before, trimmed line ≠ tag) (m : Metadata) (after : String) :
    parse? (before ++ m.render ++ after) = some m := by
  refine parse?_render hb (fun line hline => decide_eq_false fun htag => ?_) m after
  have hmem : String.ofList line ∈ linesOfString before := List.mem_map_of_mem hline
  refine hn _ hmem ?_
  rw [trimmed, String.toList_ofList, htag, String.ofList_toList]

/-- A value that holds all of the comment, behind the tag on a line with other text and in front of
another comment. -/
theorem parse?_surrounded_hostile :
    (∀ line ∈ linesOfString "// x /* dtgen-data\r\n\r\n", trimmed line ≠ tag) ∧
      parse? ("// x /* dtgen-data\r\n\r\n" ++
          (⟨"\"\x01\r\n*/\n /* dtgen-data\n"⟩ : Metadata).render ++
          (Metadata.ofSpec "").render) =
        some ⟨"\"\x01\r\n*/\n /* dtgen-data\n"⟩ := by
  have hn : ∀ line ∈ linesOfString "// x /* dtgen-data\r\n\r\n", trimmed line ≠ tag := by
    decide +kernel
  exact ⟨hn, parse?_surrounded (.inr ⟨"// x /* dtgen-data\r\n\r", by decide⟩) hn _ _⟩

end Metadata

/-! ### Generated files -/

/-- Lines that start with two slashes are no tags. -/
theorem isLine_slashes (line : List Char) : Metadata.isLine Metadata.tag ('/' :: '/' :: line) = false := by
  refine decide_eq_false fun h => ?_
  have hstart : ('/' :: '/' :: line).dropWhile isBlank = '/' :: '/' :: line := rfl
  have hprefix : trimEnd ('/' :: '/' :: line) <+: '/' :: '/' :: line := List.rdropWhile_prefix isBlank _
  rw [trim, hstart] at h
  rw [h] at hprefix
  exact absurd (List.cons_prefix_cons.1 (List.cons_prefix_cons.1 hprefix).2).1 (by decide)

theorem dropReturn_slashes (line : List Char) :
    ∃ rest, dropReturn ('/' :: '/' :: line) = '/' :: '/' :: rest := by
  rw [dropReturn]
  split
  · cases line with
    | nil => simp at *
    | cons c cs => exact ⟨(c :: cs).dropLast, rfl⟩
  · exact ⟨line, rfl⟩

/-- The lines after the slashes of the first comment, up to the name. -/
def warning : List Char := " THIS FILE WAS AUTO-GENERATED BY dtgen. DO NOT MODIFY IT!".toList

def advice : List Char := " If you would like to modify this datatype, instead modify".toList

theorem toList_concat (a b c d e : String) : (a ++ b ++ c ++ d ++ e).toList =
    a.toList ++ (b.toList ++ (c.toList ++ (d.toList ++ e.toList))) := by
  simp only [String.toList_append, List.append_assoc]

/-- The three lines of the first comment, each behind its slashes. -/
theorem toList_disclaimer (name : String) : (disclaimer name).toList =
    ('/' :: '/' :: warning) ++ '\n' :: (('/' :: '/' :: advice) ++ '\n' ::
      (('/' :: '/' :: ' ' :: name.toList) ++ '\n' :: [])) := by
  have hfirst : "// THIS FILE WAS AUTO-GENERATED BY dtgen. DO NOT MODIFY IT!\n".toList =
      ('/' :: '/' :: warning) ++ ['\n'] := by decide +kernel
  have hsecond : "// If you would like to modify this datatype, instead modify\n".toList =
      ('/' :: '/' :: advice) ++ ['\n'] := by decide +kernel
  have hlines : ∀ first second third last : List Char,
      first = ('/' :: '/' :: warning) ++ ['\n'] → second = ('/' :: '/' :: advice) ++ ['\n'] →
      third = ['/', '/', ' '] → last = ['\n'] →
      first ++ (second ++ (third ++ (name.toList ++ last))) =
        ('/' :: '/' :: warning) ++ '\n' :: (('/' :: '/' :: advice) ++ '\n' ::
          (('/' :: '/' :: ' ' :: name.toList) ++ '\n' :: [])) := by
    rintro _ _ _ _ rfl rfl rfl rfl
    simp only [List.append_assoc, List.cons_append, List.nil_append]
  exact (toList_concat _ _ _ _ _).trans (hlines _ _ _ _ hfirst hsecond (by decide) (by decide))

/-- Every line of the first comment starts with two slashes, as long as the name stays on its line. -/
theorem lines_disclaimer {name : String} (hname : '\n' ∉ name.toList) {line : List Char}
    (hline : line ∈ lines (disclaimer name).toList) : ∃ rest, line = '/' :: '/' :: rest := by
  have hfirst : '\n' ∉ '/' :: '/' :: warning := by decide +kernel
  have hsecond : '\n' ∉ '/' :: '/' :: advice := by decide +kernel
  have hthird : '\n' ∉ '/' :: '/' :: ' ' :: name.toList := by simpa using hname
  rw [toList_disclaimer, lines_cons hfirst, lines_cons hsecond, lines_cons hthird] at hline
  simp only [List.mem_cons] at hline
  rcases hline with rfl | rfl | rfl | hline
  · exact dropReturn_slashes _
  · exact dropReturn_slashes _
  · exact dropReturn_slashes _
  · exact absurd hline List.not_mem_nil

/-- Both generated files tell of the spec's text, whatever its name and code are. -/
theorem parse?_disclaimer {name : String} (hname : '\n' ∉ name.toList) (m : Metadata)
    (after : String) : Metadata.parse? (disclaimer name ++ m.render ++ after) = some m := by
  refine Metadata.parse?_render (.inr ⟨_, rfl⟩) (fun line hline => ?_) m after
  obtain ⟨rest, rfl⟩ := lines_disclaimer hname hline
  exact isLine_slashes rest

namespace Draft

theorem parse?_headerText {w : Draft} {l : Layout} (hname : '\n' ∉ (w.name l).toList) :
    Metadata.parse? (w.headerText l) = some w.metadata := by
  rw [headerText, Project.headerText]
  simp only [String.append_assoc]
  rw [← String.append_assoc]
  exact parse?_disclaimer hname _ _

theorem parse?_sourceText {w : Draft} {l : Layout} {path : Store.FilePath}
    (hname : '\n' ∉ (w.name l).toList) :
    Metadata.parse? (w.sourceText l path) = some w.metadata := by
  rw [sourceText, Project.sourceText]
  simp only [String.append_assoc]
  rw [← String.append_assoc]
  exact parse?_disclaimer hname _ _

end Draft

end TypeGen.Project
