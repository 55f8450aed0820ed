import TypeGen.Spec.Basic
import TypeGen.Store.Disk
import TypeGen.Toml.Value

/-!
What can be wrong with a spec or a configuration. An error tells the file it concerns and what is
wrong there; its wording, its code, the advice that goes with it, the places it points at and what is
behind it are read off it. What the reader of TOML says of a text that it does not understand is its
own, so all that is known here of such a complaint is what it is about.
-/

namespace TypeGen.Spec

open TypeGen.Toml TypeGen.Text TypeGen.Store

/-- A rule that a well-formed file breaks. -/
inductive Violation where
  | emptyEnum (name : String)
  | emptyVariant (name : String)
  /-- Some arms have a key; the types of those without one are listed. -/
  | partlyKeyed (name : String) (missing : List String)
  /-- A field behind a pointer, in a struct that asks for generators. -/
  | indirectGenerator (name field : String)
  | headerExtension (extension : String)
  deriving DecidableEq, Repr

def Violation.message : Violation → String
  | .emptyEnum name => "enum " ++ name ++ " must declare at least one value"
  | .emptyVariant name => "variant " ++ name ++ " must declare at least one value"
  | .partlyKeyed name missing =>
    "variant " ++ name ++ " must give either all or none of its values a key, but [" ++
      joinWith ", " missing ++ "] have none"
  | .indirectGenerator name field =>
    "struct " ++ name ++ " enables rapidcheck but field '" ++ field ++ "' is indirect"
  | .headerExtension extension =>
    "header_extension '" ++ extension ++ "' must start with '.'"

/-- What a text is read as. -/
inductive Form where
  | spec (kind : Kind)
  | config
  deriving DecidableEq, Repr

/-- What the reader of TOML says of a text: its words, and the place that it points at. -/
structure Complaint where
  message : String
  span : Option Span
  deriving DecidableEq, Repr

/-- The complaints of a reader about the texts that it does not understand as what they should be. -/
abbrev Critic := Form → String → Complaint

inductive Error where
  | unreadable (path : String) (why : Disk.Unread)
  /-- The reader does not understand a text. -/
  | syntaxError (file : String) (form : Form) (text : String)
  | unknownFeature (file token : String) (valid : List String) (span : Span)
  | malformedInclude (file text : String) (span : Span)
  | invalid (file message : String) (span : Option Span)
  | unknownKind (path : String)
  | noConfig (start : String)
  deriving DecidableEq, Repr

/-- The name of the project configuration file; its directory is the root of the project. -/
def configFile : String := ".proj.toml"

namespace Error

def message : Error → String
  | .unreadable path _ => "failed to read '" ++ path ++ "'"
  | .syntaxError file _ _ => "failed to load spec " ++ file
  | .unknownFeature file token _ _ => "unknown feature '" ++ token ++ "' in spec " ++ file
  | .malformedInclude file text _ => "malformed include '" ++ text ++ "' in spec " ++ file
  | .invalid file message _ => "invalid spec " ++ file ++ ": " ++ message
  | .unknownKind path => "unrecognized spec file '" ++ path ++ "'"
  | .noConfig start => "no " ++ configFile ++ " found in '" ++ start ++ "' or any parent directory"

/-- The file that an error is about. -/
def filename : Error → String
  | .unreadable path _ => path
  | .syntaxError file _ _ => file
  | .unknownFeature file _ _ _ => file
  | .malformedInclude file _ _ => file
  | .invalid file _ _ => file
  | .unknownKind path => path
  | .noConfig start => start

def code : Error → Option String
  | .syntaxError .. => some "dtgen::parse_error"
  | .unknownFeature .. => some "dtgen::unknown_feature"
  | .malformedInclude .. => some "dtgen::malformed_include"
  | .invalid .. => some "dtgen::validation_error"
  | _ => none

def help : Error → Option String
  | .unknownFeature _ _ valid _ => some ("valid features here are: " ++ joinWith ", " valid)
  | .malformedInclude .. =>
    some "write system includes as \"<path>\" and local includes as \"path\""
  | .unknownKind _ => some "spec files end in .struct.toml, .enum.toml or .variant.toml"
  | .noConfig _ =>
    some ("create a " ++ configFile ++ " with at least a project_name at the project root")
  | _ => none

/-- The places in the file that an error points at, each with a remark. -/
def labels (critic : Critic) : Error → List (String × Span)
  | .syntaxError _ form text => (critic form text).span.toList.map (("parse error here", ·))
  | .unknownFeature _ _ _ span => [("unknown feature", span)]
  | .malformedInclude _ _ span => [("malformed include", span)]
  | .invalid _ message (some span) => [(message, span)]
  | _ => []

/-- What is behind an error: the words of the reader, or why a file is not read. -/
def cause (critic : Critic) : Error → Option (String ⊕ Disk.Unread)
  | .syntaxError _ form text => some (.inl (critic form text).message)
  | .unreadable _ why => some (.inr why)
  | _ => none

end Error

end TypeGen.Spec
