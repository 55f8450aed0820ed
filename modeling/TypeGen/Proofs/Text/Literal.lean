import TypeGen.Text.Quoted

/-!
Literals are read back as they were written, whatever characters are in them, and so is what stands
behind them.
-/

namespace TypeGen.Text.Quoted

/-- The character that stands behind a backslash, as it is meant. -/
def unescape : Char → Option Char
  | '"' => some '"'
  | '\\' => some '\\'
  | 'n' => some '\n'
  | 't' => some '\t'
  | _ => none

/-- A literal behind its opening quote: what it denotes, and what is left behind its closing quote. A
line feed has no place in it. -/
def decode : List Char → Option (List Char × List Char)
  | [] => none
  | '"' :: rest => some ([], rest)
  | '\\' :: c :: rest =>
    match unescape c, decode rest with
    | some d, some (cs, rest) => some (d :: cs, rest)
    | _, _ => none
  | c :: rest =>
    if c = '\n' ∨ c = '\\' then none
    else (decode rest).map fun (cs, rest) => (c :: cs, rest)

/-- Reads the literal that a text begins with. -/
def read? (s : String) : Option (String × String) :=
  match s.toList with
  | '"' :: cs => (decode cs).map fun (cs, rest) => (String.ofList cs, String.ofList rest)
  | _ => none

theorem decode_backslash {c d : Char} (hc : unescape c = some d) (rest : List Char) :
    decode ('\\' :: c :: rest) = (decode rest).map fun (cs, rest) => (d :: cs, rest) := by
  rw [decode, hc]
  cases decode rest <;> rfl

theorem decode_escape (c : Char) (rest : List Char) :
    decode (escape c ++ rest) = (decode rest).map fun (cs, rest) => (c :: cs, rest) := by
  fun_cases escape c
  case case5 hquote hbackslash hfeed htab =>
    rw [List.singleton_append, decode]
    · rw [if_neg (not_or.2 ⟨hfeed, hbackslash⟩)]
    · exact hquote
    · exact fun _ _ h _ => hbackslash h
  -- the escapes of two characters
  all_goals exact decode_backslash rfl rest

theorem decode_flatMap (rest : List Char) : ∀ cs : List Char,
    decode (cs.flatMap escape ++ '"' :: rest) = some (cs, rest)
  | [] => by rw [List.flatMap_nil, List.nil_append, decode]
  | c :: cs => by
    rw [List.flatMap_cons, List.append_assoc, decode_escape, decode_flatMap rest cs]; rfl

theorem read?_literal (s t : String) : read? (literal s ++ t) = some (s, t) := by
  have hlist : (literal s ++ t).toList = '"' :: (s.toList.flatMap escape ++ '"' :: t.toList) := by
    simp [literal, encode]
  rw [read?, hlist]
  simp only [decode_flatMap, Option.map_some, String.ofList_toList]

end TypeGen.Text.Quoted
