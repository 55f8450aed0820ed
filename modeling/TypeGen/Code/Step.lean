import TypeGen.Code.Function
import TypeGen.Code.Page
import TypeGen.Spec.Include

/-!
Steps: the vocabulary in which generated code is described. A list of steps is a piece of code as
data, its blocks, functions and cases in view; strokes on a page are what it comes down to.
-/

namespace TypeGen.Code

open TypeGen.Text TypeGen.Spec

inductive Step where
  | text (s : String)
  | line (s : String)
  | newline
  /-- An empty line, behind the line that has begun. -/
  | blank
  | indent
  | dedent
  | doc (text : String)
  /-- The body and a semicolon, then the end of the line. -/
  | semicolon (body : List Step)
  /-- The body and an empty line. -/
  | spaced (body : List Step)
  | braces (body : List Step)
  | parens (body : List Step)
  | angles (body : List Step)
  /-- A header with a brace, the body one level deeper, and a closing line. -/
  | block (header closing : String) (body : List Step)
  /-- Without a name the body stands alone. -/
  | inSpace (name : Option String) (body : List Step)
  /-- The parameters of a template; without any, nothing, unless it is a specialization. -/
  | template (params : List String) (force : Bool)
  | struct (name : String) (params : List String) (specialization : Bool) (body : List Step)
  | switch (subject : String) (body : List Step)
  /-- A case; it may leave the switch at its end. -/
  | case (label : String) (leaves : Bool) (body : List Step)
  | default (leaves : Bool) (body : List Step)
  | ifElse (condition : String) (body otherwise : List Step)
  /-- Conditions tried in turn, each with its body. -/
  | ifChain (arms : List (String × List Step)) (otherwise : List Step)
  /-- Bodies with a text between each two. -/
  | join (separator : String) (items : List (List Step))
  | declare (f : Function)
  | define (f : Function) (body : List Step)
  | includes (list : IncludeList)
  | fail (cause : String)
  | unwind (cause : String)

/-! ### Comments -/

/-- Takes every end of a comment apart. -/
def openComment : List Char → List Char
  | '*' :: '/' :: cs => '*' :: ' ' :: '/' :: openComment cs
  | c :: cs => c :: openComment cs
  | [] => []

/-- A line inside of a comment. -/
def commentLine (line : List Char) : String :=
  match trimEnd line with
  | [] => " *"
  | cs => " * " ++ String.ofList cs

/-- The lines of a comment, its first and its last line included. -/
def commentLines (text : String) : List String :=
  ["/**"] ++ (lines (trimEnd (openComment text.toList))).map commentLine ++ [" */"]

/-! ### Strokes of steps -/

def strokesOfLine (s : String) : List Stroke := [.text s, .newline]

def strokesOfLines (ss : List String) : List Stroke := ss.flatMap strokesOfLine

/-- The line that introduces a template. -/
def templateLines (params : List String) (force : Bool) : List String :=
  if params.isEmpty && !force then []
  else ["template <" ++ joinWith ", " (params.map ("typename " ++ ·)) ++ ">"]

/-- A block of lines one level deeper than its header. -/
def strokesOfBlock (header closing : String) (body : List Stroke) : List Stroke :=
  [.scope .indented (header ++ " \x7b") (closing ++ "\n") body]

/-- Braces on the line that has begun; the line goes on behind them. -/
def strokesOfBraces (body : List Stroke) : List Stroke :=
  [.gap, .scope .indented "\x7b" "\x7d" body]

/-- A body that is followed by `break;` where that is asked for. -/
def strokesOfCase (label : String) (leaves : Bool) (body : List Stroke) : List Stroke :=
  strokesOfBlock label "\x7d"
    [.ensure body (if leaves then strokesOfLine "break;" else [])]

/-- Bodies with a text between each two; a failure ends its own body only. -/
def strokesOfJoin (separator : String) : List (List Stroke) → List Stroke
  | [] => []
  | [last] => [.attempt last]
  | item :: rest => .attempt item :: .text separator :: strokesOfJoin separator rest

/-- Branches of a chain behind the first. -/
def strokesOfBranches (keyword : String) : List (String × List Stroke) → List Stroke
  | [] => []
  | (condition, body) :: rest =>
    .text (keyword ++ " (" ++ condition ++ ")") :: strokesOfBraces [.attempt body] ++
      strokesOfBranches " else if" rest

mutual

/-- What a step comes down to. -/
def Step.strokes : Step → List Stroke
  | .text s => [.text s]
  | .line s => strokesOfLine s
  | .newline => [.newline]
  | .blank => [.freshLine, .newline]
  | .indent => [.indent]
  | .dedent => [.dedent]
  | .doc text => .freshLine :: strokesOfLines (commentLines text)
  | .semicolon body => [.scope .inline "" ";\n" (strokesOf body)]
  | .spaced body => [.scope .lines "" "\n" (strokesOf body)]
  | .braces body => strokesOfBraces (strokesOf body)
  | .parens body => [.scope .inline "(" ")" (strokesOf body)]
  | .angles body => [.scope .inline "<" ">" (strokesOf body)]
  | .block header closing body => strokesOfBlock header closing (strokesOf body)
  | .inSpace (some name) body =>
    [.scope .lines ("namespace " ++ name ++ " \x7b\n") ("\x7d // namespace " ++ name ++ "\n")
      (strokesOf body)]
  | .inSpace none body => strokesOf body
  | .template params force => strokesOfLines (templateLines params force)
  | .struct name params specialization body =>
    strokesOfLines (templateLines params specialization) ++
      strokesOfBlock ("struct " ++ name) "\x7d;" (strokesOf body)
  | .switch subject body => strokesOfBlock ("switch (" ++ subject ++ ")") "\x7d" (strokesOf body)
  | .case label leaves body => strokesOfCase ("case " ++ label ++ ":") leaves (strokesOf body)
  | .default leaves body => strokesOfCase "default:" leaves (strokesOf body)
  | .ifElse condition body otherwise =>
    strokesOfBranches "if" [(condition, strokesOf body)] ++ .text " else" ::
      strokesOfBraces [.attempt (strokesOf otherwise)] ++ [.newline]
  | .ifChain arms otherwise =>
    strokesOfBranches "if" (strokesOfArms arms) ++ (if arms.isEmpty then [] else [.text " else"]) ++
      strokesOfBraces [.attempt (strokesOf otherwise)] ++ [.newline]
  | .join separator items => strokesOfJoin separator (strokesOfItems items)
  | .declare f =>
    strokesOfLines (templateLines f.template false) ++
      [.scope .inline "" ";\n" [.text f.declaration]]
  | .define f body =>
    strokesOfLines (templateLines f.template false) ++
      strokesOfBlock (f.definition ++ f.initializers) "\x7d" (strokesOf body)
  | .includes list => strokesOfLines list.directives
  | .fail cause => [.fail cause]
  | .unwind cause => [.unwind cause]

def strokesOf : List Step → List Stroke
  | [] => []
  | s :: rest => s.strokes ++ strokesOf rest

def strokesOfItems : List (List Step) → List (List Stroke)
  | [] => []
  | item :: rest => strokesOf item :: strokesOfItems rest

def strokesOfArms : List (String × List Step) → List (String × List Stroke)
  | [] => []
  | (condition, body) :: rest => (condition, strokesOf body) :: strokesOfArms rest

end

/-! ### Running -/

/-- Carries out one step. -/
def Step.run (s : Step) (p : Page) : Page × Ending := runAll s.strokes p

/-- Carries out steps in order, up to the first that does not end well. -/
def runSteps (steps : List Step) (p : Page) : Page × Ending := runAll (strokesOf steps) p

/-- The text of steps on a page of their own. -/
def renderSteps (steps : List Step) : String := (runSteps steps (Page.blank Indent.default)).1.text

end TypeGen.Code
