import TypeGen.Project.Metadata
import TypeGen.Store.Disk

/-!
Faults, and what may meet one: saving, removing and looking into generated files. A fault is no
property of a spec, so it ends a run; what was written before it stays.
-/

namespace TypeGen.Project

open TypeGen.Store TypeGen.Text

inductive Fault where
  | noDirectory (path : FilePath)
  | unwritten (path : FilePath)
  | unremoved (path : FilePath)
  | unread (path : FilePath)
  /-- A formatter that could not be started. -/
  | unstarted (binary : String)
  /-- A formatter that gave up on files, and what it said. -/
  | unformatted (binary : String) (files : List FilePath) (complaint : String)
  deriving DecidableEq, Repr

def Fault.message : Fault → String
  | .noDirectory path => "failed to create directory " ++ path.text
  | .unwritten path => "failed to write " ++ path.text
  | .unremoved path => "failed to remove " ++ path.text
  | .unread path => "failed to read " ++ path.text
  | .unstarted binary => "Failed to run " ++ binary
  | .unformatted binary files complaint =>
    binary ++ " failed on " ++ joinWith ", " (files.map FilePath.text) ++ ":\n" ++ complaint

/-- Writes a text into a file whose directory is there. -/
def saveInto (d : Disk) (p : FilePath) (text : String) : Disk × Except Fault Unit :=
  match d.write? p (.text text) with
  | some d => (d, .ok ())
  | none => (d, .error (.unwritten p))

/-- Writes a text into a file, making directories as needed. -/
def save (d : Disk) (p : FilePath) (text : String) : Disk × Except Fault Unit :=
  match p.parent? with
  | none => saveInto d p text
  | some parent =>
    match d.makeDirectories parent with
    | (d, true) => saveInto d p text
    | (d, false) => (d, .error (.noDirectory parent))

def erase (d : Disk) (p : FilePath) : Except Fault Disk :=
  match d.remove? p with
  | some d => .ok d
  | none => .error (.unremoved p)

/-- The metadata of a generated file: none when the file is not there. -/
def recorded (d : Disk) (p : FilePath) : Except Fault (Option Metadata) :=
  if d.isThere p then
    match d.readText? p with
    | some text => .ok (Metadata.parse? text)
    | none => .error (.unread p)
  else .ok none

end TypeGen.Project
