import TypeGen.Project.Fault

/-!
Formatting. A formatter is a program that is started in the root of the project and told which files
to put in order; a style that the root defines is named to it. It works on the files in place, so what
it leaves is up to it.
-/

namespace TypeGen.Project

open TypeGen.Store

/-- How a program ended. -/
structure Exit where
  code : Nat
  /-- What it wrote to the stream for errors. -/
  complaint : String

structure Formatter where
  binary : String
  /-- What a run in some directory with some arguments leaves, and its end, if it can be started. -/
  start : Disk → FilePath → List String → Option (Disk × Exit)

/-- The file that defines a style. -/
def styleFile : String := ".clang-format"

def styleArgument (d : Disk) (root : FilePath) : String :=
  if d.isFile (root.child styleFile) then "--style=file:" ++ (root.child styleFile).text
  else "--style=file"

/-- Arguments that a program can be given: a zero character would end one, and each has to be
shorter than 128 KiB. -/
def isArgument (text : String) : Bool :=
  text.utf8ByteSize < 131072 && !text.toList.contains '\x00'

/-- Formats files of the project with a given root. -/
def Formatter.run (f : Formatter) (d : Disk) (root : FilePath) (files : List FilePath) :
    Disk × Except Fault Unit :=
  if files.isEmpty then (d, .ok ())
  else
    let arguments := "-i" :: styleArgument d root :: files.map FilePath.text
    if d.isDirectory root && arguments.all isArgument then
      match f.start d root arguments with
      | some (d, ⟨0, _⟩) => (d, .ok ())
      | some (d, exit) => (d, .error (.unformatted f.binary files exit.complaint))
      | none => (d, .error (.unstarted f.binary))
    else (d, .error (.unstarted f.binary))

/-- Formats files where there is a formatter. -/
def format (f : Option Formatter) (d : Disk) (root : FilePath) (files : List FilePath) :
    Disk × Except Fault Unit :=
  match f with
  | some f => f.run d root files
  | none => (d, .ok ())

end TypeGen.Project
