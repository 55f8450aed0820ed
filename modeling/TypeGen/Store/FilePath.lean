import TypeGen.Text.Blank

/-!
Paths as they are written. Slashes part a path into pieces; empty pieces and dots count for nothing,
a dot at the very start of a relative path excepted. What counts are the components, but a path
keeps its pieces: taking off a component leaves the others as they were written.
-/

namespace TypeGen.Store

open TypeGen.Text

/-- `rooted` paths start with a slash; the pieces follow it. -/
structure FilePath where
  rooted : Bool
  pieces : List String
  deriving DecidableEq, Repr

inductive Component where
  | root | current | parent
  | name (s : String)
  deriving DecidableEq, Repr

def Component.text : Component → String
  | .root => "/"
  | .current => "."
  | .parent => ".."
  | .name s => s

namespace FilePath

def empty : FilePath := ⟨false, []⟩

/-- The pieces of a text; the empty text has none. -/
def piecesOf (cs : List Char) : List String :=
  if cs.isEmpty then [] else (splitAt '/' cs).map String.ofList

def ofString (s : String) : FilePath :=
  match s.toList with
  | '/' :: cs => ⟨true, piecesOf cs⟩
  | cs => ⟨false, piecesOf cs⟩

/-- The path as it is written. -/
def text (p : FilePath) : String := (if p.rooted then "/" else "") ++ joinWith "/" p.pieces

/-! ### Components -/

/-- Pieces that count for nothing. -/
def isIdle (piece : String) : Bool := piece = "" || piece = "."

def componentOf? (piece : String) : Option Component :=
  if isIdle piece then none else if piece = ".." then some .parent else some (.name piece)

/-- The component that comes before all pieces that count. -/
def head? (p : FilePath) : Option Component :=
  if p.rooted then some .root else if p.pieces.head? = some "." then some .current else none

def components (p : FilePath) : List Component := p.head?.toList ++ p.pieces.filterMap componentOf?

/-- Paths with the same components. -/
def same (p q : FilePath) : Bool := p.components = q.components

/-- Drops pieces that count for nothing at the end. -/
def dropIdle (pieces : List String) : List String := (pieces.reverse.dropWhile isIdle).reverse

/-- The pieces up to the last one that counts; the dot that starts a relative path stays. -/
def tidyEnd (p : FilePath) : List String :=
  match p.head?, p.pieces with
  | some .current, dot :: rest => dot :: dropIdle rest
  | _, pieces => dropIdle pieces

/-- The name at the end, if a name is there. -/
def fileName? (p : FilePath) : Option String :=
  match p.components.getLast? with
  | some (.name s) => some s
  | _ => none

/-- The path without its last component. -/
def parent? (p : FilePath) : Option FilePath :=
  if p.tidyEnd.isEmpty then none
  else
    let q : FilePath := ⟨p.rooted, p.tidyEnd.dropLast⟩
    some ⟨q.rooted, q.tidyEnd⟩

/-- The path and all that are left when components are taken off its end one by one. -/
def ancestors (p : FilePath) : List FilePath := go (p.pieces.length + 1) p
where
  go : Nat → FilePath → List FilePath
    | 0, p => [p]
    | n + 1, p =>
      match p.parent? with
      | none => [p]
      | some q => p :: go n q

/-! ### Putting together -/

/-- Whether the text ends with a slash. -/
def endsOpen (p : FilePath) : Bool :=
  match p.pieces.getLast? with
  | some last => last = ""
  | none => p.rooted

/-- The path `q` as seen from `p`: a rooted path stands for itself. -/
def join (p q : FilePath) : FilePath :=
  if q.rooted then q
  else if p.endsOpen then
    if q.pieces.isEmpty then p else ⟨p.rooted, p.pieces.dropLast ++ q.pieces⟩
  else if p.pieces.isEmpty then q
  else ⟨p.rooted, p.pieces ++ (if q.pieces.isEmpty then [""] else q.pieces)⟩

def child (p : FilePath) (name : String) : FilePath := p.join (ofString name)

/-- The path with another name at its end, or with the name added where it ends in none. -/
def withFileName (p : FilePath) (name : String) : FilePath :=
  match p.fileName?, p.parent? with
  | some _, some q => q.child name
  | _, _ => p.child name

/-! ### Relative paths -/

/-- Drops pieces up to the `n`th that counts, and those behind it that do not. -/
def dropCounted : Nat → List String → List String
  | 0, pieces => pieces.dropWhile isIdle
  | _ + 1, [] => []
  | n + 1, piece :: rest =>
    if isIdle piece then dropCounted (n + 1) rest else dropCounted n rest

/-- What is left of `p` behind the components of `base`, if it starts with them. -/
def relativeTo? (p base : FilePath) : Option FilePath :=
  let cs := base.components
  if cs.isPrefixOf p.components then
    if cs.isEmpty then some ⟨p.rooted, p.tidyEnd⟩
    else
      let counted := cs.length - p.head?.toList.length
      some ⟨false, dropIdle (dropCounted counted p.pieces)⟩
  else none

def startsWith (p base : FilePath) : Bool := base.components.isPrefixOf p.components

/-- The components with slashes between them. -/
def slashed (p : FilePath) : String := joinWith "/" (p.components.map Component.text)

/-- Whether the text starts with two slashes and no third. -/
def isDoubled (p : FilePath) : Bool :=
  p.rooted && match p.pieces with
    | ["", ""] => true
    | "" :: "" :: _ => false
    | "" :: _ => true
    | _ => false

/-- The path as seen from a working directory, without pieces that count for nothing. Two slashes at
the start and a slash at the end have meanings of their own and stay. -/
def absolute (cwd p : FilePath) : FilePath :=
  let base := if p.isDoubled then ⟨true, ["", ""]⟩ else if p.rooted then ⟨true, []⟩ else cwd
  let added : FilePath := ⟨false, p.pieces.filter (!isIdle ·)⟩
  let full := if added.pieces.isEmpty then base else base.join added
  if p.endsOpen then full.child "" else full

end FilePath

end TypeGen.Store
