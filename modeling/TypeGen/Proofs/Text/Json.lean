import TypeGen.Text.Json

/-!
JSON strings are read back as they were written, whatever characters are in them.
-/

namespace TypeGen.Text.Json

/-- A character as it is read back: a control character without an escape of its own is written as a
sixteen-bit unit. -/
def pieceOf (c : Char) : Piece :=
  if c.toNat < 0x20 ∧ c ∉ ['\x08', '\x0c', '\n', '\r', '\t'] then .unit c.toNat else .char c

theorem numberIn_digits {n : Nat} (h : n < 32) :
    numberIn 16 hexValue ['0', '0', Nat.digitChar (n / 16), Nat.digitChar (n % 16)] = some n := by
  have hall : ∀ i : Fin 32, numberIn 16 hexValue
      ['0', '0', Nat.digitChar (i.val / 16), Nat.digitChar (i.val % 16)] = some i.val := by decide
  exact hall ⟨n, h⟩

theorem readPieces_backslash {c d : Char} (hc : unescape c = some d) (hu : c ≠ 'u')
    (rest : List Char) : readPieces ('\\' :: c :: rest) =
      (readPieces rest).map fun (pieces, rest) => (.char d :: pieces, rest) := by
  rw [readPieces, hc]
  · cases readPieces rest <;> rfl
  · exact fun _ _ _ _ _ h _ => hu h

theorem readPieces_escape (c : Char) (rest : List Char) : readPieces (escape c ++ rest) =
    (readPieces rest).map fun (pieces, rest) => (pieceOf c :: pieces, rest) := by
  fun_cases escape c
  case case8 h1 h2 h3 h4 h5 h6 h7 hc =>
    have hpiece : pieceOf c = .unit c.toNat := by
      have hshort : c ∉ ['\x08', '\x0c', '\n', '\r', '\t'] := by
        simpa using ⟨h3, h4, h5, h6, h7⟩
      rw [pieceOf, if_pos ⟨hc, hshort⟩]
    rw [hpiece]
    simp only [List.cons_append, List.nil_append, readPieces, numberIn_digits hc]
    cases readPieces rest <;> rfl
  case case9 h1 h2 h3 h4 h5 h6 h7 hc =>
    have hpiece : pieceOf c = .char c := by rw [pieceOf, if_neg fun h => hc h.1]
    rw [hpiece, List.singleton_append, readPieces]
    · rw [if_neg (by simpa using ⟨Nat.le_of_not_lt hc, h2⟩)]
    · exact h1
    · exact fun _ _ _ _ _ h _ => h2 h
    · exact fun _ _ h _ => h2 h
  -- the escapes of one letter
  all_goals exact readPieces_backslash rfl (by decide) rest

theorem readPieces_flatMap (rest : List Char) : ∀ cs : List Char,
    readPieces (cs.flatMap escape ++ '"' :: rest) = some (cs.map pieceOf, rest)
  | [] => by rw [List.flatMap_nil, List.nil_append, readPieces]; rfl
  | c :: cs => by
    rw [List.flatMap_cons, List.append_assoc, readPieces_escape, readPieces_flatMap rest cs]; rfl

theorem textOf_unit {n : Nat} (h : n < 0x20) (rest : List Piece) :
    textOf (.unit n :: rest) = (textOf rest).map (Char.ofNat n :: ·) := by
  have hhigh : isHighSurrogate n = false := by simp [isHighSurrogate]; omega
  have hlow : isLowSurrogate n = false := by simp [isLowSurrogate]; omega
  cases rest with
  | nil => simp [textOf, hhigh, hlow]
  | cons p rest => cases p <;> simp [textOf, hhigh, hlow]

theorem textOf_map_pieceOf : ∀ cs : List Char, textOf (cs.map pieceOf) = some cs
  | [] => rfl
  | c :: cs => by
    rw [List.map_cons, pieceOf]
    split
    next h => rw [textOf_unit h.1, textOf_map_pieceOf cs, Char.ofNat_toNat]; rfl
    next => rw [textOf, textOf_map_pieceOf cs]; rfl

theorem readString_encode (cs rest : List Char) :
    readString (encode cs ++ rest) = some (String.ofList cs, rest) := by
  rw [encode, List.cons_append, List.append_assoc, List.singleton_append, readString,
    readPieces_flatMap]
  simp only [Option.bind_eq_bind, Option.bind_some, textOf_map_pieceOf]

/-- No line ends inside of a written string. -/
theorem notMem_encode (cs : List Char) : '\n' ∉ encode cs := by
  have hescape : ∀ c, '\n' ∉ escape c := fun c => by
    fun_cases escape c
    case case8 hc =>
      have hall : ∀ i : Fin 32, '\n' ∉ ['\\', 'u', '0', '0', Nat.digitChar (i.val / 16),
        Nat.digitChar (i.val % 16)] := by decide
      exact hall ⟨c.toNat, hc⟩
    case case9 _ _ _ _ hn _ _ _ => simpa using fun h => hn h.symm
    all_goals decide
  rw [encode]
  simp [hescape]

end TypeGen.Text.Json
