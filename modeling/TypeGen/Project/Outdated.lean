import TypeGen.Project.Fault
import TypeGen.Project.Layout

/-!
Outdated files: generated files from which every spec that they may stem from is gone.
-/

namespace TypeGen.Project

open TypeGen.Store

namespace Layout

/-- Whether no spec is there that a generated file may stem from. -/
def isOutdated (l : Layout) (d : Disk) (generated : FilePath) : Bool :=
  !(l.possibleSpecs d generated).any d.isFile

def outdated (l : Layout) (d : Disk) : List FilePath := (l.generatedFiles d).filter (l.isOutdated d)

end Layout

/-- Removes files one after the other, up to the first that cannot be removed. -/
def eraseAll (d : Disk) : List FilePath → Disk × Except Fault Unit
  | [] => (d, .ok ())
  | p :: ps =>
    match erase d p with
    | .ok d => eraseAll d ps
    | .error fault => (d, .error fault)

end TypeGen.Project
