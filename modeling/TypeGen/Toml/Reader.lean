import TypeGen.Toml.Document
import TypeGen.Toml.Scalar

/-!
The grammar of TOML documents. A document is a run of lines, each a header, an entry or empty;
values span lines only inside brackets and long strings. Readers take the rest of the text and give
back what they leave; where a string stands follows from how much text is left around it.
-/

namespace TypeGen.Toml

/-- The length of a text in bytes. -/
def byteLength (cs : List Char) : Nat := cs.foldl (fun n c => n + c.utf8Size) 0

/-- Where in a text of `total` bytes a reader stood that found `before` and left `after`. -/
def spanBetween (total : Nat) (before after : List Char) : Span :=
  ⟨total - byteLength before, byteLength before - byteLength after⟩

/-- How deep arrays and inline tables may nest, and how many keys may have dots between them. -/
def depthLimit : Nat := 80

/-! ### Layout -/

def skipSpace (cs : List Char) : List Char := cs.dropWhile isSpace

/-- Drops a comment, if there is one. -/
def skipComment : List Char → Option (List Char)
  | '#' :: rest =>
    let inLine (c : Char) : Bool := c ≠ '\n' && c ≠ '\r'
    if (rest.takeWhile inLine).all isTextChar then some (rest.dropWhile inLine) else none
  | cs => some cs

/-- Drops blanks, comments and line ends. -/
def skipGap : Nat → List Char → Option (List Char)
  | 0, _ => none
  | fuel + 1, cs => do
    let rest ← skipComment (skipSpace cs)
    match dropNewline? rest with
    | some rest => skipGap fuel rest
    | none => some rest

/-- Drops what may follow an entry or a header on its line, and the line end. -/
def skipLineEnd (cs : List Char) : Option (List Char) := do
  match ← skipComment (skipSpace cs) with
  | [] => some []
  | rest => dropNewline? rest

/-! ### Keys -/

def isKeyChar (c : Char) : Bool := c.isAlphanum || c = '_' || c = '-'

/-- Reads a bare or quoted key. -/
def readKey (cs : List Char) : Option (String × List Char) :=
  match cs with
  | '"' :: rest =>
    (readBasic (rest.length + 1) rest).map fun (text, rest) => (String.ofList text, rest)
  | '\'' :: rest => (readLiteral rest).map fun (text, rest) => (String.ofList text, rest)
  | _ =>
    let word := cs.takeWhile isKeyChar
    if word.isEmpty then none else some (String.ofList word, cs.dropWhile isKeyChar)

/-- Reads up to `count` keys with dots between them, blanks allowed around each: the keys on the way
and the last one. -/
def readSomeKeys : Nat → List Char → Option ((List String × String) × List Char)
  | 0, _ => none
  | count + 1, cs => do
    let (key, rest) ← readKey (skipSpace cs)
    match skipSpace rest with
    | '.' :: rest =>
      let ((path, last), rest) ← readSomeKeys count rest
      some ((key :: path, last), rest)
    | rest => some (([], key), rest)

/-- Reads the keys of an entry or a header. -/
def readKeys : List Char → Option ((List String × String) × List Char) := readSomeKeys depthLimit

/-! ### Values -/

mutual

/-- Reads a value. Each step of the fuel takes a character at least. -/
def readValue (total : Nat) : Nat → Nat → List Char → Option (Value × List Char)
  | 0, _, _ => none
  | fuel + 1, depth, cs =>
    match cs with
    | '[' :: rest => if depth = 0 then none else readItems total fuel (depth - 1) [] rest
    | '\x7b' :: rest => if depth = 0 then none else readMembers total fuel (depth - 1) [] rest
    | '"' :: _ => readText total cs
    | '\'' :: _ => readText total cs
    | _ =>
      let (word, rest) := splitWord cs
      (readWord word).map (·, rest)

/-- Reads a string and notes where it stands. -/
def readText (total : Nat) (cs : List Char) : Option (Value × List Char) :=
  (readString? cs).map fun (text, rest) =>
    (.string ⟨String.ofList text, spanBetween total cs rest⟩, rest)

/-- Reads the items of an array, up to its closing bracket; `done` holds the items so far, the last
one first. A comma may follow the last item. -/
def readItems (total : Nat) : Nat → Nat → List Value → List Char → Option (Value × List Char)
  | 0, _, _, _ => none
  | fuel + 1, depth, done, cs => do
    match ← skipGap (cs.length + 1) cs with
    | ']' :: rest => some (.array done.reverse, rest)
    | cs =>
      let (item, rest) ← readValue total fuel depth cs
      match ← skipGap (rest.length + 1) rest with
      | ',' :: rest => readItems total fuel depth (item :: done) rest
      | ']' :: rest => some (.array (item :: done).reverse, rest)
      | _ => none

/-- Reads the entries of an inline table, up to its closing brace; blanks, comments and line ends
may stand between any two tokens, and a comma may follow the last entry. -/
def readMembers (total : Nat) : Nat → Nat → List Entry → List Char → Option (Value × List Char)
  | 0, _, _, _ => none
  | fuel + 1, depth, done, cs => do
    match ← skipGap (cs.length + 1) cs with
    | '\x7d' :: rest => some (.table (← tableOfEntries done.reverse), rest)
    | cs =>
      let ((path, key), rest) ← readKeys cs
      match ← skipGap (rest.length + 1) rest with
      | '=' :: rest =>
        let (value, rest) ← readValue total fuel depth (← skipGap (rest.length + 1) rest)
        let done := ⟨path, key, value⟩ :: done
        match ← skipGap (rest.length + 1) rest with
        | ',' :: rest => readMembers total fuel depth done rest
        | '\x7d' :: rest => some (.table (← tableOfEntries done.reverse), rest)
        | _ => none
      | _ => none

end

/-! ### Documents -/

/-- Reads `keys = value`. -/
def readEntry (total : Nat) (cs : List Char) : Option (Entry × List Char) := do
  let ((path, key), rest) ← readKeys cs
  let rest ← expectChar '=' rest
  let (value, rest) ← readValue total (2 * rest.length + 2) depthLimit (skipSpace rest)
  some (⟨path, key, value⟩, rest)

/-- Reads a header, from behind its first bracket on. -/
def readHeader (cs : List Char) : Option (Header × List Char) := do
  match cs with
  | '[' :: rest =>
    let ((path, key), rest) ← readKeys rest
    some (.array path key, ← expectChar ']' (← expectChar ']' rest))
  | _ =>
    let ((path, key), rest) ← readKeys cs
    some (.table path key, ← expectChar ']' rest)

/-- Reads line by line: the entries in front of the first header, and the sections behind it. -/
def readLines (total : Nat) : Nat → List Char → Option (List Entry × List Section)
  | 0, _ => none
  | fuel + 1, cs => do
    match ← skipGap (cs.length + 1) cs with
    | [] => some ([], [])
    | '[' :: rest =>
      let (header, rest) ← readHeader rest
      let (entries, sections) ← readLines total fuel (← skipLineEnd rest)
      some ([], ⟨header, entries⟩ :: sections)
    | cs =>
      let (entry, rest) ← readEntry total cs
      let (entries, sections) ← readLines total fuel (← skipLineEnd rest)
      some (entry :: entries, sections)

/-- A byte order mark at the start is no part of the document. -/
def dropMark : List Char → List Char
  | '\ufeff' :: cs => cs
  | cs => cs

/-- The table of a document, if it is one. -/
def parse? (text : String) : Option Table := do
  let cs := text.toList
  let rest := dropMark cs
  let (entries, sections) ← readLines (byteLength cs) (rest.length + 1) rest
  tableOfSections (⟨.root, entries⟩ :: sections)

end TypeGen.Toml
