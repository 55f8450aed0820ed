/-!
Pages and strokes. A page is text in the making: what is written, how deep the next line is
indented, and whether a line has just begun. Strokes are the few things that can be done to a page.
A body of strokes may stop early, by a failure that its caller may absorb or by a fault that nothing
does; whatever happens, each scope that was opened is closed.
-/

namespace TypeGen.Code

/-- What one level of indentation looks like. -/
inductive Indent where
  | spaces (width : Nat)
  | tab
  deriving DecidableEq, Repr

/-- Two, four and eight spaces are kept; two stand in for every other width. -/
def Indent.unit : Indent → String
  | .spaces 4 => "    "
  | .spaces 8 => "        "
  | .spaces _ => "  "
  | .tab => "\t"

def Indent.default : Indent := .spaces 2

structure Page where
  indent : Indent
  level : Nat
  text : String
  atLineStart : Bool
  deriving DecidableEq, Repr

namespace Page

def blank (i : Indent) : Page := ⟨i, 0, "", true⟩

/-- The blanks that a line at the page's level starts with. -/
def margin (p : Page) : String := String.join (List.replicate p.level p.indent.unit)

/-- Writes a character. The first one of a line goes behind the margin; a line without characters
has no margin. -/
def put (p : Page) (c : Char) : Page :=
  if c = '\n' then { p with text := p.text.push c, atLineStart := true }
  else if p.atLineStart then { p with text := (p.text ++ p.margin).push c, atLineStart := false }
  else { p with text := p.text.push c }

/-- Writes a text character by character. -/
def write (p : Page) (s : String) : Page := s.toList.foldl put p

def newline (p : Page) : Page := p.put '\n'

/-- Ends the line, if one has begun. -/
def freshLine (p : Page) : Page := if p.atLineStart then p else p.newline

def deeper (p : Page) : Page := { p with level := p.level + 1 }

/-- At the outermost level there is nothing to go back to. -/
def shallower (p : Page) : Page := { p with level := p.level - 1 }

end Page

/-- How a body ended: at its end, by a failure, or by a fault that unwinds everything. -/
inductive Ending where
  | done
  | failed (cause : String)
  | unwound (cause : String)
  deriving DecidableEq, Repr

/-- How the inside of a scope is set: on the line of its opening text, on lines of its own one level
deeper, or on lines of its own at the same level. -/
inductive Setting where
  | inline | indented | lines
  deriving DecidableEq, Repr

inductive Stroke where
  | text (s : String)
  | newline
  | freshLine
  /-- A space, unless a line has just begun. -/
  | gap
  | indent
  | dedent
  | scope (setting : Setting) (opening closing : String) (body : List Stroke)
  /-- A failure in the body ends the body and nothing else. -/
  | attempt (body : List Stroke)
  /-- The second part follows the first also when that fails, but not when it unwinds. -/
  | ensure (body after : List Stroke)
  | fail (cause : String)
  | unwind (cause : String)

namespace Setting

/-- Starts a scope. -/
def enter (s : Setting) (opening : String) (p : Page) : Page :=
  match s with
  | .inline => p.write opening
  | .indented => (p.write opening).freshLine.deeper
  | .lines => p.freshLine.write opening

/-- Ends a scope. -/
def leave (s : Setting) (closing : String) (p : Page) : Page :=
  match s with
  | .inline => p.write closing
  | .indented => p.freshLine.shallower.write closing
  | .lines => p.freshLine.write closing

end Setting

/-- The ending of an attempt: failures are forgotten. -/
def Ending.absorb : Ending → Ending
  | .failed _ => .done
  | e => e

mutual

/-- Carries out a stroke. -/
def Stroke.run : Stroke → Page → Page × Ending
  | .text s, p => (p.write s, .done)
  | .newline, p => (p.newline, .done)
  | .freshLine, p => (p.freshLine, .done)
  | .gap, p => (if p.atLineStart then p else p.write " ", .done)
  | .indent, p => (p.deeper, .done)
  | .dedent, p => (p.shallower, .done)
  | .scope setting opening closing body, p =>
    let (p, e) := runAll body (setting.enter opening p)
    (setting.leave closing p, e)
  | .attempt body, p =>
    let (p, e) := runAll body p
    (p, e.absorb)
  | .ensure body after, p =>
    match runAll body p with
    | (p, .unwound cause) => (p, .unwound cause)
    | (p, e) =>
      match runAll after p with
      | (p, .done) => (p, e)
      | (p, e') => (p, e')
  | .fail cause, p => (p, .failed cause)
  | .unwind cause, p => (p, .unwound cause)

/-- Carries out strokes in order, up to the first that does not end well. -/
def runAll : List Stroke → Page → Page × Ending
  | [], p => (p, .done)
  | s :: rest, p =>
    match s.run p with
    | (p, .done) => runAll rest p
    | (p, e) => (p, e)

end

end TypeGen.Code
