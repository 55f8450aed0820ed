import TypeGen.Text.Digit
import TypeGen.Toml.Value

/-!
TOML scalars: strings with their escapes, numbers, dates and times. Each reader of a string starts
behind the opening quotes and gives back the text and what follows the closing quotes.
-/

namespace TypeGen.Toml

open TypeGen.Text

/-! ### Strings -/

/-- Tabs, and what is no control character. -/
def isTextChar (c : Char) : Bool := c = '\t' || (0x20 ≤ c.toNat && c.toNat ≠ 0x7F)

def isSpace (c : Char) : Bool := c = ' ' || c = '\t'

/-- The character with a given code point. -/
def charOf? (n : Nat) : Option Char := if n.isValidChar then some (Char.ofNat n) else none

/-- Reads an escape of `count` hexadecimal digits. -/
def readCode (count : Nat) (cs : List Char) : Option (Char × List Char) := do
  let digits := cs.take count
  if digits.length < count then none
  else some (← charOf? (← numberIn 16 hexValue digits), cs.drop count)

/-- Reads an escape, from behind its backslash. -/
def readEscape : List Char → Option (Char × List Char)
  | 'b' :: rest => some ('\x08', rest)
  | 't' :: rest => some ('\t', rest)
  | 'n' :: rest => some ('\n', rest)
  | 'f' :: rest => some ('\x0c', rest)
  | 'r' :: rest => some ('\r', rest)
  | 'e' :: rest => some ('\x1b', rest)
  | '"' :: rest => some ('"', rest)
  | '\\' :: rest => some ('\\', rest)
  | 'x' :: rest => readCode 2 rest
  | 'u' :: rest => readCode 4 rest
  | 'U' :: rest => readCode 8 rest
  | _ => none

/-- Reads a string in quotes. The fuel bounds its characters. -/
def readBasic : Nat → List Char → Option (List Char × List Char)
  | 0, _ => none
  | _ + 1, [] => none
  | _ + 1, '"' :: rest => some ([], rest)
  | fuel + 1, '\\' :: rest => do
    let (c, rest) ← readEscape rest
    let (text, rest) ← readBasic fuel rest
    some (c :: text, rest)
  | fuel + 1, c :: rest => do
    if !isTextChar c then none
    else
      let (text, rest) ← readBasic fuel rest
      some (c :: text, rest)

/-- Reads a string in apostrophes: every character stands for itself. -/
def readLiteral : List Char → Option (List Char × List Char)
  | [] => none
  | '\'' :: rest => some ([], rest)
  | c :: rest => do
    if !isTextChar c then none
    else
      let (text, rest) ← readLiteral rest
      some (c :: text, rest)

/-- Drops one line end. -/
def dropNewline? : List Char → Option (List Char)
  | '\n' :: rest => some rest
  | '\r' :: '\n' :: rest => some rest
  | _ => none

/-- Drops a line end that directly follows the opening quotes. -/
def dropFirstNewline (cs : List Char) : List Char := (dropNewline? cs).getD cs

/-- Drops spaces, tabs and line ends. -/
def dropLayout : Nat → List Char → List Char
  | 0, cs => cs
  | fuel + 1, cs =>
    let cs := cs.dropWhile isSpace
    match dropNewline? cs with
    | some rest => dropLayout fuel rest
    | none => cs

/-- A run of the closing character: with three or more the string ends, and up to two of them in
front of the last three belong to it. -/
def closing? (quote : Char) (cs : List Char) : Option (List Char × List Char) :=
  let run := (cs.takeWhile (· == quote)).length
  if run < 3 then none
  else
    let extra := min (run - 3) 2
    some (List.replicate extra quote, cs.drop (3 + extra))

/-- What a string in three quotes may hold: a carriage return only as part of a line end. -/
def isLongChar (c : Char) (rest : List Char) : Bool :=
  isTextChar c || c = '\n' || (c = '\r' && rest.head? = some '\n')

/-- Reads a string in three quotes; a backslash at a line end drops the layout that follows. -/
def readLongBasic : Nat → List Char → Option (List Char × List Char)
  | 0, _ => none
  | _ + 1, [] => none
  | fuel + 1, c :: rest =>
    match closing? '"' (c :: rest) with
    | some done => some done
    | none =>
      if c = '\\' then
        match dropNewline? (rest.dropWhile isSpace) with
        | some rest => readLongBasic fuel (dropLayout rest.length rest)
        | none => do
          let (c, rest) ← readEscape rest
          let (text, rest) ← readLongBasic fuel rest
          some (c :: text, rest)
      else if isLongChar c rest then
        (readLongBasic fuel rest).map fun (text, rest) => (c :: text, rest)
      else none

/-- Reads a string in three apostrophes. -/
def readLongLiteral : List Char → Option (List Char × List Char)
  | [] => none
  | c :: rest =>
    match closing? '\'' (c :: rest) with
    | some done => some done
    | none =>
      if isLongChar c rest then
        (readLongLiteral rest).map fun (text, rest) => (c :: text, rest)
      else none

/-- Reads a string of any of the four forms, from its opening quote on. -/
def readString? (cs : List Char) : Option (List Char × List Char) :=
  match cs with
  | '"' :: '"' :: '"' :: rest =>
    let rest := dropFirstNewline rest
    readLongBasic (rest.length + 1) rest
  | '\'' :: '\'' :: '\'' :: rest => readLongLiteral (dropFirstNewline rest)
  | '"' :: rest => readBasic (rest.length + 1) rest
  | '\'' :: rest => readLiteral rest
  | _ => none

/-! ### Numbers -/

/-- Splits at underscores. -/
def groups : List Char → List (List Char)
  | [] => [[]]
  | '_' :: cs => [] :: groups cs
  | c :: cs =>
    match groups cs with
    | [] => [[c]]
    | g :: gs => (c :: g) :: gs

/-- The digits of a run in which single underscores may stand between two digits. -/
def digitRun (isDigit : Char → Bool) (cs : List Char) : Option (List Char) :=
  let gs := groups cs
  if gs.all fun g => !g.isEmpty && g.all isDigit then some gs.flatten else none

/-- A decimal integer part: no zero leads another digit. -/
def wholeDigits (cs : List Char) : Option (List Char) := do
  let ds ← digitRun Char.isDigit cs
  if ds.head? = some '0' && 1 < ds.length then none else some ds

/-- Splits at the first character that satisfies `p`, which is dropped. -/
def splitOnce (p : Char → Bool) (cs : List Char) : List Char × Option (List Char) :=
  match cs.dropWhile (!p ·) with
  | [] => (cs, none)
  | _ :: rest => (cs.takeWhile (!p ·), some rest)

/-- Takes off a sign; `true` is minus. -/
def splitSign : List Char → Bool × List Char
  | '-' :: cs => (true, cs)
  | '+' :: cs => (false, cs)
  | cs => (false, cs)

def signed (minus : Bool) (n : Nat) : Int := if minus then -(n : Int) else n

/-- An integer behind the mark of its base; with no digit at all it is ill-formed. -/
def readRadix (base : Nat) (isDigit : Char → Bool) (cs : List Char) : Option Value := do
  if cs.isEmpty then some .illFormed
  else
    let ds ← digitRun isDigit cs
    some (.integer (← numberIn base hexValue ds))

/-- A decimal number: whole digits, then perhaps a fraction and perhaps an exponent. -/
def readDecimal (minus : Bool) (cs : List Char) : Option Value := do
  let (body, exponent) := splitOnce (fun c => c = 'e' || c = 'E') cs
  let (whole, fraction) := splitOnce (· = '.') body
  let ws ← wholeDigits whole
  match fraction, exponent with
  | none, none => some (.integer (signed minus (← numberIn 10 decimalValue ws)))
  | _, _ =>
    let fs ← (fraction.map (digitRun Char.isDigit)).getD (some [])
    let (down, es) := splitSign (exponent.getD ['0'])
    let e ← numberIn 10 decimalValue (← digitRun Char.isDigit es)
    some (.float (some (← numberIn 10 decimalValue (ws ++ fs), signed down e - fs.length)))

def isHexDigit (c : Char) : Bool := (hexValue c).isSome

/-- Whether every underscore between the groups stands between two hexadecimal digits. -/
def wellParted : List (List Char) → Bool
  | g :: h :: gs =>
    g.getLast?.any isHexDigit && h.head?.any isHexDigit && wellParted (h :: gs)
  | _ => true

/-- A word that begins with decimal digits and an underscore, looks like no decimal fraction, holds
no space and has its underscores between digits. What else it holds, tabs among it, does not keep it
from being passed over. -/
def isNumberLike (cs : List Char) : Bool :=
  let body := (splitSign cs).2
  let gs := groups body
  let first := gs.headD []
  1 < gs.length && first.all Char.isDigit && first.head? ≠ some '0' && wellParted gs
    && body.all fun c => c ≠ '.' && c ≠ 'e' && c ≠ 'E' && c ≠ ' '

def readNumber (cs : List Char) : Option Value :=
  match cs with
  | '0' :: 'x' :: rest => readRadix 16 isHexDigit rest
  | '0' :: 'o' :: rest => readRadix 8 (fun c => '0' ≤ c && c ≤ '7') rest
  | '0' :: 'b' :: rest => readRadix 2 (fun c => c = '0' || c = '1') rest
  | _ =>
    let (minus, body) := splitSign cs
    if body = ['i', 'n', 'f'] || body = ['n', 'a', 'n'] then some (.float none)
    else readDecimal minus body

/-! ### Dates and times -/

/-- Reads `count` digits. -/
def readDigits (count : Nat) (cs : List Char) : Option (Nat × List Char) := do
  let ds := cs.take count
  if ds.length < count then none
  else some (← numberIn 10 decimalValue ds, cs.drop count)

/-- Drops `c` from the front. -/
def expectChar (c : Char) : List Char → Option (List Char)
  | d :: rest => if d = c then some rest else none
  | [] => none

def daysIn (year month : Nat) : Nat :=
  if month = 2 then
    if year % 4 = 0 && (year % 100 ≠ 0 || year % 400 = 0) then 29 else 28
  else if month = 4 || month = 6 || month = 9 || month = 11 then 30
  else 31

/-- Drops a date of the calendar. -/
def skipDate (cs : List Char) : Option (List Char) := do
  let (year, rest) ← readDigits 4 cs
  let (month, rest) ← readDigits 2 (← expectChar '-' rest)
  let (day, rest) ← readDigits 2 (← expectChar '-' rest)
  if 1 ≤ month && month ≤ 12 && 1 ≤ day && day ≤ daysIn year month then some rest else none

/-- Drops hours and minutes. -/
def skipClock (cs : List Char) : Option (List Char) := do
  let (hour, rest) ← readDigits 2 cs
  let (minute, rest) ← readDigits 2 (← expectChar ':' rest)
  if hour ≤ 23 && minute ≤ 59 then some rest else none

/-- Drops a time; seconds may be missing, and 60 of them make a leap second. -/
def skipTime (cs : List Char) : Option (List Char) := do
  match ← skipClock cs with
  | ':' :: rest =>
    let (second, rest) ← readDigits 2 rest
    if 60 < second then none
    else match rest with
      | '.' :: rest =>
        let after := rest.dropWhile Char.isDigit
        if after.length = rest.length then none else some after
      | rest => some rest
  | rest => some rest

/-- Drops the offset that may follow a date with a time. -/
def skipOffset : List Char → Option (List Char)
  | 'Z' :: rest => some rest
  | 'z' :: rest => some rest
  | '+' :: rest => skipClock rest
  | '-' :: rest => skipClock rest
  | cs => some cs

/-- A date, a date with a time, or a time. -/
def isMoment (cs : List Char) : Bool :=
  match skipDate cs with
  | some [] => true
  | some (sep :: rest) =>
    (sep = 'T' || sep = 't' || sep = ' ') && (skipTime rest).bind skipOffset = some []
  | none => skipTime cs = some []

/-- Characters of a value that does not begin with a quote or a bracket: what follows it on its
line begins with any other character. -/
def isWordChar (c : Char) : Bool :=
  !(['=', ',', '[', ']', '\x7b', '\x7d', '#', ' ', '\t', '\r', '\n'].contains c)

/-- Takes a word off the front, with the one that may follow it behind blanks: a date and its time
are written so. A string that follows is no part of it. -/
def splitWord (cs : List Char) : List Char × List Char :=
  let (word, rest) := cs.span isWordChar
  let (blanks, next) := rest.span isSpace
  let continues (c : Char) : Bool := isWordChar c && c ≠ '"' && c ≠ '\''
  if next.head?.any continues then
    let (second, rest) := next.span isWordChar
    (word ++ blanks ++ second, rest)
  else (word, rest)

/-- What a word stands for. -/
def readWord (word : List Char) : Option Value :=
  if word = "true".toList then some (.boolean true)
  else if word = "false".toList then some (.boolean false)
  else match readNumber word with
    | some v => some v
    | none =>
      if isMoment word then some .moment
      else if isNumberLike word then some .illFormed
      else none

end TypeGen.Toml
