import TypeGen.Project.Generate

/-!
Summaries: what a command says when it is done, line by line. Paths are shown as seen from the root
of the project.
-/

namespace TypeGen.Command

open TypeGen.Project TypeGen.Store

/-- A heading and its items, or nothing when there are none. -/
def sectionLines (heading mark : String) (items : List String) : List String :=
  if items.isEmpty then [] else (heading ++ ":") :: items.map (("  " ++ mark ++ " ") ++ ·)

def shown (l : Layout) (paths : List FilePath) : List String :=
  paths.map fun p => (l.relative p).text

/-- The summary of a generation. -/
def generateLines (l : Layout) (r : Report) : List String :=
  sectionLines "Generated" "+" (shown l r.written) ++
  sectionLines "Unchanged" "-" (shown l r.unchanged) ++
  if r.generated.isEmpty && r.unchanged.isEmpty && r.failures.isEmpty then ["No spec files found."]
  else ["", toString r.generated.length ++ " generated, " ++ toString r.unchanged.length ++
    " unchanged, " ++ toString r.failures.length ++ " failed"]

/-- The summary of a check. -/
def checkLines (checked invalid : Nat) : List String :=
  if invalid = 0 then ["✓ " ++ toString checked ++ " spec(s) are valid"]
  else ["", toString invalid ++ " of " ++ toString checked ++ " spec(s) are invalid"]

/-- The summary of a search for outdated files. -/
def outdatedLines (l : Layout) (deleted : Bool) (files : List FilePath) : List String :=
  if files.isEmpty then ["No outdated files found."]
  else sectionLines (if deleted then "Deleted" else "Outdated") "-" (shown l files)

/-- Lines, each with its end. -/
def textOfLines (lines : List String) : String := String.join (lines.map (· ++ "\n"))

end TypeGen.Command
