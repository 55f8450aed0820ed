import TypeGen.Project.Discovery
import TypeGen.Store.Walk

/-!
Where the files of a project are. A header is generated next to its spec. Inside of a library, which
is a directory with an `include` and a `src` directory, the source goes under `src`, to where the
header is under either; elsewhere it stays next to the header.
-/

namespace TypeGen.Project

open TypeGen.Spec TypeGen.Store TypeGen.Text

/-- A project: its root and what its configuration says. -/
structure Layout where
  root : FilePath
  config : Config
  deriving DecidableEq

/-- What follows the stem in the names of generated files. -/
def generatedMark : String := ".dtg"

def sourceSuffix : String := generatedMark ++ ".cc"

/-- The directories of a library. -/
def includeDirectory : String := "include"

def sourceDirectory : String := "src"

/-- A header that is in none of the places where it was looked for. -/
structure MissingHeader where
  header : FilePath
  searched : List FilePath
  deriving DecidableEq, Repr

namespace MissingHeader

def message (m : MissingHeader) : String :=
  "no generated header found for '" ++ m.header.text ++ "'"

def code : String := "dtgen::missing_header"

def help (m : MissingHeader) : String :=
  "looked for: " ++ joinWith ", " (m.searched.map FilePath.text) ++
    "; generate the header before its source"

end MissingHeader

namespace Layout

/-- The project that a directory belongs to. -/
def discover (d : Disk) (start : FilePath) : Except Spec.Error Layout :=
  match findRoot? d start with
  | some root => (readConfig d (root.child configFile)).map (⟨root, ·⟩)
  | none => .error (.noConfig start.text)

/-- How the names of generated headers end. -/
def headerSuffix (l : Layout) : String := generatedMark ++ l.config.headerExtension

/-- A path as seen from the root; a path outside of the project stays as it is. -/
def relative (l : Layout) (p : FilePath) : FilePath := (p.relativeTo? l.root).getD p

/-! ### Names of generated files -/

/-- The header of a spec. -/
def headerPath? (l : Layout) (spec : FilePath) : Option FilePath := do
  let kind ← kindOf? spec
  let stem ← kind.stem? (← spec.fileName?)
  some (spec.withFileName (stem ++ l.headerSuffix))

/-- The name of a generated file without its ending. -/
def generatedStem? (l : Layout) (p : FilePath) : Option String := do
  let name ← p.fileName?
  let stem ← [l.headerSuffix, sourceSuffix].findSome? (cutEnding? · name)
  if stem = "" then none else some stem

def isGenerated (l : Layout) (p : FilePath) : Bool := (l.generatedStem? p).isSome

/-! ### Libraries -/

/-- The nearest library around a path, inside of the project. -/
def library? (l : Layout) (d : Disk) (p : FilePath) : Option FilePath :=
  ((p.ancestors.drop 1).takeWhile (·.startsWith l.root)).find? fun dir =>
    d.isDirectory (dir.child includeDirectory) && d.isDirectory (dir.child sourceDirectory)

/-- The library around a path, with the path as seen from one of its two directories. -/
def inLibrary? (l : Layout) (d : Disk) (p : FilePath) : Option (FilePath × FilePath) := do
  let lib ← l.library? d p
  let rel ← [includeDirectory, sourceDirectory].findSome? fun dir => p.relativeTo? (lib.child dir)
  some (lib, rel)

/-- The source that belongs to a header. -/
def sourcePath (l : Layout) (d : Disk) (header : FilePath) : FilePath :=
  let name := (l.generatedStem? header).getD "" ++ sourceSuffix
  match l.inLibrary? d header with
  | some (lib, rel) => ((lib.child sourceDirectory).join rel).withFileName name
  | none => header.withFileName name

/-- The path by which a header is included, if it is there. -/
def includePath (l : Layout) (d : Disk) (header : FilePath) : Except MissingHeader FilePath :=
  let (candidates, path) := match l.inLibrary? d header with
    | some (lib, rel) =>
      ([(lib.child includeDirectory).join rel, (lib.child sourceDirectory).join rel], rel)
    | none => ([header], FilePath.ofString (header.fileName?.getD ""))
  if candidates.any d.isFile then .ok path else .error ⟨header, candidates⟩

/-- The include guard of a header. -/
def headerGuard (l : Layout) (header : FilePath) : String :=
  guardIdentifier ("_" ++ l.config.guardStem ++ "_" ++ (l.relative header).text)

/-- The specs from which a generated file may stem: of every kind, in both directories of its
library and next to it. -/
def possibleSpecs (l : Layout) (d : Disk) (generated : FilePath) : List FilePath :=
  match l.generatedStem? generated with
  | none => []
  | some stem =>
    let inLibrary := match l.inLibrary? d generated with
      | some (lib, rel) =>
        let dir := rel.parent?.getD FilePath.empty
        [(lib.child includeDirectory).join dir, (lib.child sourceDirectory).join dir]
      | none => []
    let beside := generated.parent?.toList.filter fun dir => !inLibrary.any (·.same dir)
    (inLibrary ++ beside).flatMap fun dir =>
      Kind.all.map fun kind => dir.child (stem ++ kind.suffix)

/-! ### Files of the project -/

/-- Whether a path is in one of the excluded entries of the root. -/
def isExcluded (l : Layout) (p : FilePath) : Bool :=
  match (l.relative p).components with
  | c :: _ => l.config.exclude.contains c.text
  | [] => false

/-- Every file under the root that is not excluded. -/
def files (l : Layout) (d : Disk) : List FilePath := d.files l.isExcluded l.root

/-- Every spec of the project. -/
def specFiles (l : Layout) (d : Disk) : List FilePath :=
  (l.files d).filter fun p => (kindOf? p).isSome

/-- Every generated file of the project. -/
def generatedFiles (l : Layout) (d : Disk) : List FilePath := (l.files d).filter l.isGenerated

end Layout

end TypeGen.Project
