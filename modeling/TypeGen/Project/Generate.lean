import TypeGen.Project.Format
import TypeGen.Project.Layout
import TypeGen.Render.Code

/-!
Generation: from the specs of a project to their headers and sources. A spec that cannot be
generated is told of, and the others are generated all the same; a fault ends the run.
-/

namespace TypeGen.Project

open TypeGen.Render TypeGen.Spec TypeGen.Store TypeGen.Text

/-- What was written for a spec. -/
structure Generated where
  spec : FilePath
  header : FilePath
  source : FilePath
  deriving DecidableEq, Repr

/-- Why nothing was generated for a spec. -/
inductive Failure where
  | spec (e : Spec.Error)
  | missingHeader (m : MissingHeader)
  deriving DecidableEq

def Failure.message : Failure → String
  | .spec e => e.message
  | .missingHeader m => m.message

inductive Outcome where
  | generated (files : Generated)
  /-- Header and source already tell of the spec as it is. -/
  | unchanged
  | failed (cause : Failure)
  | aborted (fault : Fault)
  deriving DecidableEq

structure Generator where
  layout : Layout
  formatter : Option Formatter
  /-- Leave files alone whose metadata tells of the spec as it is. -/
  skipUnchanged : Bool

/-! ### Texts of generated files -/

/-- The comment at the top, with the spec as seen from the root. -/
def disclaimer (spec : String) : String :=
  "// THIS FILE WAS AUTO-GENERATED BY dtgen. DO NOT MODIFY IT!\n" ++
    "// If you would like to modify this datatype, instead modify\n" ++
    "// " ++ spec ++ "\n"

def headerText (spec : String) (m : Metadata) (guard code : String) : String :=
  disclaimer spec ++ m.render ++ "\n#ifndef " ++ guard ++ "\n#define " ++ guard ++ "\n\n" ++ code ++
    "\n#endif // " ++ guard ++ "\n"

def sourceText (spec : String) (m : Metadata) (header code : String) : String :=
  disclaimer spec ++ m.render ++ "\n#include " ++ Quoted.literal header ++ "\n" ++ code

namespace Generator

/-! ### One spec -/

/-- Whether header and source both tell of the given metadata. -/
def isCurrent (d : Disk) (header source : FilePath) (m : Metadata) : Except Fault Bool := do
  if (← recorded d header) = some m then return (← recorded d source) = some m else return false

/-- Writes the header, and then the source that includes it. -/
def write (g : Generator) (d : Disk) (spec header source : FilePath) (m : Metadata) (s : Spec) :
    Disk × Outcome :=
  let name := (g.layout.relative spec).slashed
  match save d header (headerText name m (g.layout.headerGuard header) (headerCode s)) with
  | (d, .error fault) => (d, .aborted fault)
  | (d, .ok ()) =>
    match g.layout.includePath d header with
    | .error missing => (d, .failed (.missingHeader missing))
    | .ok path =>
      match save d source (sourceText name m path.slashed (sourceCode s)) with
      | (d, .error fault) => (d, .aborted fault)
      | (d, .ok ()) => (d, .generated ⟨spec, header, source⟩)

/-- Writes what belongs to the text of a spec, if it can be understood. -/
def generateText (g : Generator) (d : Disk) (spec header : FilePath) (kind : Kind) (text : String) :
    Disk × Outcome :=
  let m := Metadata.ofSpec text
  let source := g.layout.sourcePath d header
  match if g.skipUnchanged then isCurrent d header source m else .ok false with
  | .error fault => (d, .aborted fault)
  | .ok true => (d, .unchanged)
  | .ok false =>
    match Spec.parse kind text (g.layout.relative spec).slashed with
    | .error e => (d, .failed (.spec e))
    | .ok s => g.write d spec header source m s

/-- Generates the files of one spec, without formatting them. -/
def generate (g : Generator) (d : Disk) (spec : FilePath) : Disk × Outcome :=
  match kindOf? spec, g.layout.headerPath? spec with
  | some kind, some header =>
    match d.read spec with
    | .ok text => g.generateText d spec header kind text
    | .error why => (d, .failed (.spec (.unreadable spec.text why)))
  | _, _ => (d, .failed (.spec (.unknownKind spec.text)))

end Generator

/-! ### Many specs -/

/-- What became of the specs of a run. -/
structure Report where
  generated : List Generated
  unchanged : List FilePath
  failures : List (FilePath × Failure)
  deriving DecidableEq

namespace Report

def empty : Report := ⟨[], [], []⟩

def isSuccess (r : Report) : Bool := r.failures.isEmpty

/-- The report with one more spec ahead of the others. -/
def add (r : Report) (spec : FilePath) : Outcome → Report
  | .generated files => { r with generated := files :: r.generated }
  | .unchanged => { r with unchanged := spec :: r.unchanged }
  | .failed cause => { r with failures := (spec, cause) :: r.failures }
  | .aborted _ => r

/-- Every file that was written. -/
def written (r : Report) : List FilePath := r.generated.flatMap fun g => [g.header, g.source]

end Report

namespace Generator

/-- Generates specs in order. -/
def generateEach (g : Generator) (d : Disk) : List FilePath → Disk × Except Fault Report
  | [] => (d, .ok Report.empty)
  | spec :: specs =>
    match g.generate d spec with
    | (d, .aborted fault) => (d, .error fault)
    | (d, outcome) =>
      match g.generateEach d specs with
      | (d, .ok report) => (d, .ok (report.add spec outcome))
      | (d, .error fault) => (d, .error fault)

/-- Generates specs in order, then formats all that was written. -/
def run (g : Generator) (d : Disk) (specs : List FilePath) : Disk × Except Fault Report :=
  match g.generateEach d specs with
  | (d, .error fault) => (d, .error fault)
  | (d, .ok report) =>
    match format g.formatter d g.layout.root report.written with
    | (d, .ok ()) => (d, .ok report)
    | (d, .error fault) => (d, .error fault)

/-- Generates every spec of the project. -/
def runAll (g : Generator) (d : Disk) : Disk × Except Fault Report :=
  g.run d (g.layout.specFiles d)

end Generator

end TypeGen.Project
