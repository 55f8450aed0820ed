import TypeGen.Store.FileTree

/-!
A disk: a tree, and the directory from which relative paths are seen. A path is followed name by
name; a link stands for its target, seen from where the link is, and two dots lead to the directory
that the place so far is really in. What is found there decides whether a file can be read, written
or removed and a directory made.
-/

namespace TypeGen.Store

/-- Why there is no way. -/
inductive Obstacle where
  /-- Something on the way is no directory. -/
  | noDirectory
  /-- A name on the way that no entry can have. -/
  | strangeName
  /-- A path that cannot be followed at all. -/
  | strangePath
  /-- More links than are followed on one way. -/
  | manyLinks
  deriving DecidableEq, Repr

/-- What a path leads to. -/
inductive Spot where
  | found (place : Place) (e : Entry)
  /-- Nothing, in a directory that is there; `slashed` when slashes follow the name. -/
  | vacant (place : Place) (slashed : Bool)
  /-- A directory on the way is not there. -/
  | missing
  | obstructed (cause : Obstacle)
  deriving DecidableEq, Repr

/-- How far a path leads until it ends or comes to a link that has to be followed. -/
inductive Trail where
  | spot (s : Spot)
  | link (here : Place) (target : FilePath) (rest : List String)

/-- Names that an entry can have. -/
def isName (name : String) : Bool := name.utf8ByteSize ≤ 255 && !name.toList.contains '\x00'

/-- Paths that lead anywhere are shorter than this, in bytes. -/
def pathLimit : Nat := 4096

/-- Paths that can be followed. -/
def isPath (p : FilePath) : Bool :=
  p.text.utf8ByteSize < pathLimit && !p.pieces.any fun piece => piece.toList.contains '\x00'

/-- Links that are followed on one way, at most. -/
def linkLimit : Nat := 40

namespace FileTree

/-- Follows pieces from a directory on. A link that comes last is itself what is found there, unless
the way goes `through` it. -/
def trail (t : FileTree) (through : Bool) (here : Place) : List String → Trail
  | [] => .spot (.found here .directory)
  | piece :: rest =>
    match FilePath.componentOf? piece with
    | some (.name name) =>
      if isName name then
        match t.get? (here ++ [name]) with
        | some .directory => t.trail through (here ++ [name]) rest
        | some (.link target) =>
          if rest.isEmpty && !through then .spot (.found (here ++ [name]) (.link target))
          else .link here target rest
        | some (.file c) =>
          .spot (if rest.isEmpty then .found (here ++ [name]) (.file c)
            else .obstructed .noDirectory)
        | none =>
          .spot (if rest.all (· = "") then .vacant (here ++ [name]) (!rest.isEmpty) else .missing)
      else .spot (.obstructed .strangeName)
    | some .parent => t.trail through here.dropLast rest
    | _ => t.trail through here rest

/-- Follows pieces and a limited number of links. -/
def resolve (t : FileTree) (through : Bool) : Nat → Place → List String → Spot
  | limit, here, pieces =>
    match t.trail through here pieces with
    | .spot s => s
    | .link here target rest =>
      match limit with
      | 0 => .obstructed .manyLinks
      | limit + 1 =>
        t.resolve through limit (if target.rooted then [] else here) (target.pieces ++ rest)

theorem get?_directory_of_put? {t u : FileTree} {place q : Place} {e : Entry}
    (h : t.put? place e = some u) (hq : t.get? q = some .directory) :
    u.get? q = some .directory := by
  rw [get?_of_put? h]
  split
  next hp =>
    simp only [put?] at h
    split at h
    next ho => simp [isOpen, ← hp, hq] at ho
    next => cases h
  next => exact hq

theorem get?_directory_of_remove? {t u : FileTree} {place q : Place} (h : t.remove? place = some u)
    (hq : t.get? q = some .directory) : u.get? q = some .directory := by
  rw [get?_of_remove? h]
  split
  next hp =>
    simp only [remove?] at h
    split at h
    next ho => exact absurd (hp ▸ hq) ho.2
    next => cases h
  next => exact hq

end FileTree

structure Disk where
  tree : FileTree
  home : Place
  home_isDirectory : tree.get? home = some .directory

namespace Disk

/-- A disk with nothing on it. -/
def empty : Disk := ⟨FileTree.empty, [], FileTree.empty.root⟩

/-- What a path leads to. The empty path leads nowhere. -/
def locate (d : Disk) (through : Bool) (p : FilePath) : Spot :=
  if p.pieces.isEmpty && !p.rooted then .missing
  else if !isPath p then .obstructed .strangePath
  else d.tree.resolve through linkLimit (if p.rooted then [] else d.home) p.pieces

/-! ### Looking -/

def isFile (d : Disk) (p : FilePath) : Bool :=
  match d.locate true p with
  | .found _ (.file _) => true
  | _ => false

def isDirectory (d : Disk) (p : FilePath) : Bool :=
  match d.locate true p with
  | .found _ .directory => true
  | _ => false

def isThere (d : Disk) (p : FilePath) : Bool :=
  match d.locate true p with
  | .found _ _ => true
  | _ => false

/-- Why a text is not read. -/
inductive Unread where
  | missing
  | directory
  /-- A file of bytes that are no text. -/
  | binary
  | obstructed (cause : Obstacle)
  deriving DecidableEq, Repr

def read (d : Disk) (p : FilePath) : Except Unread String :=
  match d.locate true p with
  | .found _ (.file (.text s)) => .ok s
  | .found _ (.file .binary) => .error .binary
  | .found _ _ => .error .directory
  | .vacant _ _ => .error .missing
  | .missing => .error .missing
  | .obstructed cause => .error (.obstructed cause)

/-- The text of a file. -/
def readText? (d : Disk) (p : FilePath) : Option String := (d.read p).toOption

theorem read_eq_ok {d : Disk} {p : FilePath} {s : String} :
    d.read p = .ok s ↔ ∃ place, d.locate true p = .found place (.file (.text s)) := by
  rw [read]
  split
  next hloc => simp [hloc]
  all_goals next hloc => simp_all

theorem readText?_eq_some_iff {d : Disk} {p : FilePath} {s : String} :
    d.readText? p = some s ↔ d.read p = .ok s := by
  rw [readText?]
  cases d.read p <;> simp [Except.toOption]

theorem exists_locate_of_readText? {d : Disk} {p : FilePath} {s : String}
    (h : d.readText? p = some s) : ∃ place, d.locate true p = .found place (.file (.text s)) :=
  read_eq_ok.1 (readText?_eq_some_iff.1 h)

/-- The disk as seen from another directory. -/
def enter? (d : Disk) (p : FilePath) : Option Disk :=
  match d.locate true p with
  | .found place _ =>
    if h : d.tree.get? place = some .directory then some ⟨d.tree, place, h⟩ else none
  | _ => none

/-! ### Changing -/

/-- Puts an entry where one may be put. -/
def put? (d : Disk) (place : Place) (e : Entry) : Option Disk :=
  match h : d.tree.put? place e with
  | some t => some ⟨t, d.home, FileTree.get?_directory_of_put? h d.home_isDirectory⟩
  | none => none

/-- Writes a file, new or not. Links are followed, also those to a file that is yet to be. -/
def write? (d : Disk) (p : FilePath) (c : Content) : Option Disk :=
  match d.locate true p with
  | .found place (.file _) => d.put? place (.file c)
  | .vacant place false => d.put? place (.file c)
  | _ => none

/-- Removes a file or a link, not what the link leads to. -/
def remove? (d : Disk) (p : FilePath) : Option Disk :=
  match d.locate false p with
  | .found place _ =>
    match h : d.tree.remove? place with
    | some t => some ⟨t, d.home, FileTree.get?_directory_of_remove? h d.home_isDirectory⟩
    | none => none
  | _ => none

/-- Makes a link where nothing is. -/
def makeLink? (d : Disk) (target p : FilePath) : Option Disk :=
  match d.locate false p with
  | .vacant place false => d.put? place (.link target)
  | _ => none

/-- Why a directory is not made: the one that it belongs in is missing, or something else. -/
inductive Refusal where
  | missing | other
  deriving DecidableEq, Repr

def makeDirectory (d : Disk) (p : FilePath) : Except Refusal Disk :=
  match d.locate false p with
  | .vacant place _ =>
    match d.put? place .directory with
    | some d => .ok d
    | none => .error .other
  | .missing => .error .missing
  | _ => .error .other

/-- Makes the first of some directories, each of which belongs in the next, and those of the others
that are missing. Tells whether the first is there now. -/
def makeChain (d : Disk) : List FilePath → Disk × Bool
  | [] => (d, false)
  | p :: above =>
    if p.components.isEmpty then (d, true)
    else match d.makeDirectory p with
      | .ok d => (d, true)
      | .error .other => (d, d.isDirectory p)
      | .error .missing =>
        match d.makeChain above with
        | (d, false) => (d, false)
        | (d, true) =>
          match d.makeDirectory p with
          | .ok d => (d, true)
          | .error _ => (d, d.isDirectory p)

/-- Makes a directory and those above it. -/
def makeDirectories (d : Disk) (p : FilePath) : Disk × Bool := d.makeChain p.ancestors

end Disk

end TypeGen.Store
