import TypeGen.Spec.Config
import TypeGen.Store.Disk

/-!
Discovery: which files are specs, what they say, and which project a directory belongs to. A project
is rooted in the nearest directory that holds a configuration.
-/

namespace TypeGen.Project

open TypeGen.Spec TypeGen.Store

/-- The kind of the spec file that a path names. -/
def kindOf? (p : FilePath) : Option Kind := p.fileName?.bind Kind.ofFileName?

/-- Reads a file as a spec of a given kind. -/
def readSpecAs (d : Disk) (kind : Kind) (p : FilePath) : Except Spec.Error Spec :=
  match d.read p with
  | .ok text => Spec.parse kind text p.text
  | .error why => .error (.unreadable p.text why)

/-- Reads a spec file; its name tells the kind. -/
def readSpec (d : Disk) (p : FilePath) : Except Spec.Error Spec :=
  match kindOf? p with
  | some kind => readSpecAs d kind p
  | none => .error (.unknownKind p.text)

def readConfig (d : Disk) (p : FilePath) : Except Spec.Error Config :=
  match d.read p with
  | .ok text => parseConfig text p.text
  | .error why => .error (.unreadable p.text why)

/-- The root of the project that a directory belongs to. -/
def findRoot? (d : Disk) (start : FilePath) : Option FilePath :=
  start.ancestors.find? fun p => d.isFile (p.child configFile)

end TypeGen.Project
