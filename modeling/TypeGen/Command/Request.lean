import TypeGen.Command.Words
import TypeGen.Store.FilePath

/-!
Requests: what a command line asks for. Apart from the verbosity no switch is given twice, and the
first word that does not fit makes the whole line unfit.
-/

namespace TypeGen.Command

open TypeGen.Store

inductive Request where
  /-- Generate the given specs, or all; without a formatter when none is named. -/
  | generate (root : Option FilePath) (specs : List FilePath) (formatter : Option String)
      (skipUnchanged : Bool)
  /-- Read the given specs, or all, and generate nothing. -/
  | check (root : Option FilePath) (specs : List FilePath)
  /-- List the outdated files, or delete them. -/
  | outdated (root : Option FilePath) (delete : Bool)
  /-- A script for a shell, which is not made here. -/
  | completions
  | help
  | version
  | misuse
  deriving DecidableEq, Repr

/-- What a command understands. -/
structure Shape where
  switches : List Switch
  /-- Whether an operand fits at a position. -/
  accepts : Nat → String → Bool

/-- What was given to a command. -/
structure Given where
  switches : List (Switch × Option String)
  operands : List String

namespace Given

def has (g : Given) (s : Switch) : Bool := (g.switches.lookup s).isSome

def value? (g : Given) (s : Switch) : Option String := (g.switches.lookup s).join

def root? (g : Given) : Option FilePath := (g.value? .root).map FilePath.ofString

def paths (g : Given) : List FilePath := g.operands.map FilePath.ofString

end Given

/-- Takes items in, up to the first that asks for help or does not fit. -/
def gather (shape : Shape) (g : Given) : List Item → Except Request Given
  | [] => .ok g
  | .strange :: _ => .error .misuse
  | .operand text :: items =>
    if shape.accepts g.operands.length text then
      gather shape { g with operands := g.operands ++ [text] } items
    else .error .misuse
  | .switch .help _ :: _ => .error .help
  | .switch .verbose _ :: items => gather shape g items
  | .switch s value :: items =>
    if g.has s then .error .misuse
    else gather shape { g with switches := g.switches ++ [(s, value)] } items

/-- The request of a command, if its words fit. -/
def requestOf (shape : Shape) (words : List String) (make : Given → Request) : Request :=
  match gather shape ⟨[], []⟩ (itemsOfWords shape.switches words) with
  | .ok g => make g
  | .error r => r

def defaultFormatter : String := "clang-format"

/-- Shells for which there are scripts. -/
def shells : List String := ["bash", "elvish", "fish", "powershell", "zsh"]

def generateShape : Shape where
  switches := [.verbose, .help, .root, .noFormat, .clangFormat, .skipUnchanged]
  accepts _ _ := true

def checkShape : Shape where
  switches := [.verbose, .help, .root]
  accepts _ _ := true

def outdatedShape : Shape where
  switches := [.verbose, .help, .root, .delete]
  accepts _ _ := false

def completionsShape : Shape where
  switches := [.verbose, .help]
  accepts position text := position = 0 && shells.contains text

/-- Commands that help can be asked for, itself among them. -/
def commands : List String := ["generate", "check", "outdated", "completions", "help"]

/-- A request for help: its words are no switches, and name one command at most. -/
def helpRequest : List String → Request
  | [] => .help
  | [word] => if commands.contains word then .help else .misuse
  | _ => .misuse

/-- The request of the command with a given name. -/
def requestNamed (name : String) (words : List String) : Request :=
  if name = "generate" then
    requestOf generateShape words fun g =>
      let binary := (g.value? .clangFormat).getD defaultFormatter
      .generate g.root? g.paths (if g.has .noFormat then none else some binary)
        (g.has .skipUnchanged)
  else if name = "check" then
    requestOf checkShape words fun g => .check g.root? g.paths
  else if name = "outdated" then
    requestOf outdatedShape words fun g => .outdated g.root? (g.has .delete)
  else if name = "completions" then
    requestOf completionsShape words fun g => if g.operands.isEmpty then .misuse else .completions
  else if name = "help" then helpRequest words
  else .misuse

/-- What comes of switches ahead of the command; nothing, where they only ask for more words. -/
def answerOfItems : List Item → Option Request
  | [] => none
  | .switch .verbose _ :: items => answerOfItems items
  | .switch .help _ :: _ => some .help
  | .switch .version _ :: _ => some .version
  | _ => some .misuse

/-- What a command line asks for. -/
def Request.ofWords : List String → Request
  | [] => .misuse
  | word :: words =>
    if isDashed word then
      match answerOfItems (itemsOfWord [.verbose, .help, .version] word).1 with
      | some r => r
      | none => Request.ofWords words
    else requestNamed word words

end TypeGen.Command
