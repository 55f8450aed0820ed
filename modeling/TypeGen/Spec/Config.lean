import TypeGen.Spec.Check
import TypeGen.Text.Identifier

/-!
Project configurations. All but the name of the project has a default; keys of other tools are
passed over.
-/

namespace TypeGen.Spec

open TypeGen.Toml TypeGen.Text

structure Config where
  projectName : String
  namespaceName : Option String
  /-- What every include guard of the project starts with. -/
  guardStem : String
  /-- Extension of generated headers, with its dot. -/
  headerExtension : String
  /-- Top-level entries that are never searched. -/
  exclude : List String
  deriving DecidableEq

namespace Config

def defaultHeaderExtension : String := ".h"

def defaultExclude : List String := ["build", "deps", "triton"]

/-- Defaults for everything but the name. -/
def ofName (name : String) : Config where
  projectName := name
  namespaceName := none
  guardStem := guardIdentifier name
  headerExtension := defaultHeaderExtension
  exclude := defaultExclude

end Config

/-- A configuration as its table spells it. -/
structure RawConfig where
  projectName : String
  namespaceName : Option String
  guardStem : Option String
  headerExtension : Option Located
  exclude : Option (List String)

def RawConfig.keys : List String :=
  ["project_name", "namespace_name", "ifndef_name", "header_extension", "dtgen_exclude"]

def RawConfig.ofTable? (t : Table) : Option RawConfig := do
  guard (othersFit RawConfig.keys t)
  some {
    projectName := ← required t "project_name" asText
    namespaceName := ← optional t "namespace_name" asText
    guardStem := ← optional t "ifndef_name" asText
    headerExtension := ← optional t "header_extension" asLocated
    exclude := ← optional t "dtgen_exclude" (asList asText) }

/-- An extension is a dot and something after it. -/
def isExtension (s : String) : Bool := s.toList.head? = some '.' && 1 < s.length

def checkExtension (file : String) : Option Located → Except Error String
  | none => .ok Config.defaultHeaderExtension
  | some ext =>
    if isExtension ext.text then .ok ext.text
    else .error (.invalid file (Violation.headerExtension ext.text).message (some ext.span))

def RawConfig.check (file : String) (raw : RawConfig) : Except Error Config := do
  let extension ← checkExtension file raw.headerExtension
  let base := Config.ofName raw.projectName
  return {
    projectName := raw.projectName
    namespaceName := raw.namespaceName
    guardStem := raw.guardStem.getD base.guardStem
    headerExtension := extension
    exclude := raw.exclude.getD base.exclude }

/-- Reads the text of a configuration. -/
def parseConfig (text file : String) : Except Error Config := do
  (← decode .config RawConfig.ofTable? text file).check file

end TypeGen.Spec
