import TypeGen.Text.Blank

/-!
Include directives. A spec writes a system include as `<path>` and a local one as `path`; blanks
around either do not count, and the path itself holds neither blanks nor angle brackets nor quotes.
-/

namespace TypeGen.Spec

open TypeGen.Text

structure Include where
  path : String
  system : Bool
  deriving DecidableEq, Repr

namespace Include

/-- The system include with a given path. -/
def ofSystem (path : String) : Include := ⟨path, true⟩

/-- Characters that no path of an include holds. -/
def isForbidden (c : Char) : Bool := c = '<' || c = '>' || c = '"' || isBlank c

/-- The include with a given path, if that can be a path. -/
def ofPath? (system : Bool) (path : List Char) : Option Include :=
  if path.isEmpty || path.any isForbidden then none else some ⟨String.ofList path, system⟩

/-- Reads an include as a spec writes it: with both angle brackets or with none. -/
def parse? (s : String) : Option Include :=
  match trim s.toList with
  | '<' :: rest => if rest.getLast? = some '>' then ofPath? true rest.dropLast else none
  | path => if path.getLast? = some '>' then none else ofPath? false path

/-- How an include is named in a spec. -/
def written (i : Include) : String := if i.system then "<" ++ i.path ++ ">" else i.path

/-- The line that a generated file holds. -/
def directive (i : Include) : String :=
  if i.system then "#include <" ++ i.path ++ ">" else "#include \"" ++ i.path ++ "\""

end Include

/-! ### Lists of includes -/

/-- Includes in the order of their first occurrence, without repetition. -/
structure IncludeList where
  toList : List Include
  nodup : toList.Nodup
  deriving DecidableEq

namespace IncludeList

def empty : IncludeList := ⟨[], List.nodup_nil⟩

def contains (l : IncludeList) (i : Include) : Bool := l.toList.contains i

theorem nodup_concat {l : List Include} {i : Include} (h : l.Nodup) (hi : i ∉ l) :
    (l ++ [i]).Nodup := by
  rw [List.nodup_append]
  refine ⟨h, by simp, fun a ha b hb => ?_⟩
  rintro rfl
  exact hi (List.mem_singleton.1 hb ▸ ha)

/-- Adds an include at the end, unless it is there already. -/
def add (l : IncludeList) (i : Include) : IncludeList :=
  if h : i ∈ l.toList then l else ⟨l.toList ++ [i], nodup_concat l.nodup h⟩

/-- Adds an include, and tells whether it was not there before. -/
def insertNew (l : IncludeList) (i : Include) : IncludeList × Bool := (l.add i, !l.contains i)

def extend (l : IncludeList) (is : List Include) : IncludeList := is.foldl add l

def merge (l other : IncludeList) : IncludeList := l.extend other.toList

def ofList (is : List Include) : IncludeList := empty.extend is

def size (l : IncludeList) : Nat := l.toList.length

def isEmpty (l : IncludeList) : Bool := l.toList.isEmpty

/-- The directives, one an entry. -/
def directives (l : IncludeList) : List String := l.toList.map Include.directive

end IncludeList

end TypeGen.Spec
