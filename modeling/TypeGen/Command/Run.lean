import TypeGen.Command.Request
import TypeGen.Command.Summary
import TypeGen.Project.Outdated

/-!
Running requests. A request works on the project that the working directory, or another one that it
names, belongs to; it leaves the disk as it should be and replies with a code and a text.
-/

namespace TypeGen.Command

open TypeGen.Project TypeGen.Store

structure Reply where
  code : Nat
  output : String
  /-- What else there is to say, on the stream for errors. -/
  complaints : List String
  deriving DecidableEq, Repr

/-- Programs by their names, each with what a run of it leaves and its end, if it can be started. -/
abbrev Programs := String → Disk → FilePath → List String → Option (Disk × Exit)

def toolName : String := "dtgen"

def toolVersion : String := "0.5.0"

/-- The reply when something went wrong on the way. -/
def failure (message : String) : Reply := ⟨1, "", [message]⟩

def usageError : Reply := ⟨2, "", ["usage: " ++ toolName ++ " generate|check|outdated ..."]⟩

/-- The path of the working directory. -/
def workingPath (d : Disk) : FilePath := ⟨true, d.home⟩

def absolute (d : Disk) (p : FilePath) : FilePath := FilePath.absolute (workingPath d) p

/-- The project that a request is about. -/
def layoutOf (d : Disk) (root : Option FilePath) : Except Spec.Error Layout :=
  Layout.discover d (match root with
    | some p => absolute d p
    | none => workingPath d)

def runGenerate (programs : Programs) (d : Disk) (l : Layout) (specs : List FilePath)
    (formatter : Option String) (skipUnchanged : Bool) : Disk × Reply :=
  let g : Generator := ⟨l, formatter.map fun name => ⟨name, programs name⟩, skipUnchanged⟩
  match if specs.isEmpty then g.runAll d else g.run d specs with
  | (d, .ok report) =>
    (d, ⟨if report.isSuccess then 0 else 1, textOfLines (generateLines l report),
      report.failures.map (·.2.message)⟩)
  | (d, .error fault) => (d, failure fault.message)

def errorOf? {ε α : Type} : Except ε α → Option ε
  | .ok _ => none
  | .error e => some e

def runCheck (d : Disk) (l : Layout) (specs : List FilePath) : Reply :=
  let specs := if specs.isEmpty then l.specFiles d else specs
  let errors := specs.filterMap fun p => errorOf? (readSpec d p)
  ⟨if errors.isEmpty then 0 else 1, textOfLines (checkLines specs.length errors.length),
    errors.map (·.message)⟩

def runOutdated (d : Disk) (l : Layout) (delete : Bool) : Disk × Reply :=
  let files := l.outdated d
  let reply : Reply := ⟨0, textOfLines (outdatedLines l delete files), []⟩
  if delete then
    match eraseAll d files with
    | (d, .ok ()) => (d, reply)
    | (d, .error fault) => (d, failure fault.message)
  else (d, reply)

/-- Does what is asked for. -/
def Request.run (programs : Programs) (d : Disk) : Request → Disk × Reply
  | .generate root specs formatter skipUnchanged =>
    match layoutOf d root with
    | .ok l => runGenerate programs d l (specs.map (absolute d)) formatter skipUnchanged
    | .error e => (d, failure e.message)
  | .check root specs =>
    match layoutOf d root with
    | .ok l => (d, runCheck d l (specs.map (absolute d)))
    | .error e => (d, failure e.message)
  | .outdated root delete =>
    match layoutOf d root with
    | .ok l => runOutdated d l delete
    | .error e => (d, failure e.message)
  | .version => (d, ⟨0, toolName ++ " " ++ toolVersion ++ "\n", []⟩)
  | .help => (d, ⟨0, "", []⟩)
  | .completions => (d, ⟨0, "", []⟩)
  | .misuse => (d, usageError)

end TypeGen.Command
