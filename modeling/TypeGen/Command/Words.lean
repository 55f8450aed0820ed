import TypeGen.Text.Blank

/-!
Words of a command line. A word is a switch, several switches in one letter each, the value of a
switch or an operand; behind two dashes all words are operands. Nothing that is given is empty.
-/

namespace TypeGen.Command

inductive Switch where
  | verbose | help | version | root | noFormat | clangFormat | skipUnchanged | delete
  deriving DecidableEq, Repr

namespace Switch

/-- The name behind two dashes. -/
def long : Switch → String
  | .verbose => "verbose"
  | .help => "help"
  | .version => "version"
  | .root => "root"
  | .noFormat => "no-format"
  | .clangFormat => "clang-format"
  | .skipUnchanged => "skip-unchanged"
  | .delete => "delete"

/-- The letter behind one dash. -/
def short? : Switch → Option Char
  | .verbose => some 'v'
  | .help => some 'h'
  | .version => some 'V'
  | .root => some 'r'
  | _ => none

def takesValue : Switch → Bool
  | .root => true
  | .clangFormat => true
  | _ => false

end Switch

/-- What a word, or a switch and its value, is understood as. -/
inductive Item where
  | switch (s : Switch) (value : Option String)
  | operand (text : String)
  /-- What cannot be understood. -/
  | strange
  deriving DecidableEq, Repr

def operandItem (text : String) : Item := if text = "" then .strange else .operand text

def valueItem (s : Switch) (value : String) : Item :=
  if value = "" then .strange else .switch s (some value)

/-- Words that are no values; a single dash is one. -/
def isDashed (word : String) : Bool :=
  match word.toList with
  | '-' :: _ :: _ => true
  | _ => false

/-- The name and the value of a switch, parted by an equals sign. -/
def partsOf (cs : List Char) : String × Option String :=
  let name := String.ofList (cs.takeWhile (· ≠ '='))
  match cs.dropWhile (· ≠ '=') with
  | [] => (name, none)
  | _ :: value => (name, some (String.ofList value))

/-- Letters behind one dash. The first switch that takes a value has the other letters for it; if
there are none, the value is in the next word. -/
def itemsOfLetters (known : List Switch) : List Char → List Item × Option Switch
  | [] => ([], none)
  | c :: cs =>
    match known.find? (·.short? = some c) with
    | none => ([.strange], none)
    | some s =>
      if s.takesValue then
        match cs with
        | [] => ([], some s)
        | '=' :: value => ([valueItem s (String.ofList value)], none)
        | value => ([valueItem s (String.ofList value)], none)
      else
        let (items, open?) := itemsOfLetters known cs
        (.switch s none :: items, open?)

/-- A word by itself: its items and the switch that still needs a value. -/
def itemsOfWord (known : List Switch) (word : String) : List Item × Option Switch :=
  match word.toList with
  | '-' :: '-' :: rest =>
    let (name, value?) := partsOf rest
    match known.find? (·.long = name) with
    | none => ([.strange], none)
    | some s =>
      match s.takesValue, value? with
      | true, none => ([], some s)
      | true, some value => ([valueItem s value], none)
      | false, none => ([.switch s none], none)
      | false, some _ => ([.strange], none)
  | '-' :: c :: cs => itemsOfLetters known (c :: cs)
  | _ => ([operandItem word], none)

/-- The items of a command line on which some switches are known. -/
def itemsOfWords (known : List Switch) : List String → List Item
  | [] => []
  | word :: words =>
    if word = "--" then words.map operandItem
    else match itemsOfWord known word with
      | (items, none) => items ++ itemsOfWords known words
      | (items, some s) =>
        match words with
        | [] => items ++ [.strange]
        | value :: words =>
          if isDashed value then items ++ [.strange]
          else items ++ valueItem s value :: itemsOfWords known words

end TypeGen.Command
