import TypeGen.Toml.Value

/-!
From the sections of a document to its one table. A table is defined once: by its header, by the
dotted keys that lead into it, or by a value. Headers may go through tables that they imply, and
into the last table of an array of tables; dotted keys stay inside what dotted keys have made.
-/

namespace TypeGen.Toml

/-- `path.key = value`. -/
structure Entry where
  path : List String
  key : String
  value : Value

/-- What a section stands under. -/
inductive Header where
  | root
  | table (path : List String) (key : String)
  | array (path : List String) (key : String)

structure Section where
  header : Header
  entries : List Entry

/-- What made a table: its own header, a longer header, or a dotted key. -/
inductive Origin where
  | header | implied | dotted
  deriving DecidableEq

/-- A table under construction. Values, inline tables among them, are closed. -/
inductive Node where
  | closed (v : Value)
  | table (origin : Origin) (entries : List (String × Node))
  | tables (items : List (List (String × Node)))

abbrev Nodes := List (String × Node)

/-- Puts a node in the place of the one under `key`. -/
def replaceKey (key : String) (n : Node) (es : Nodes) : Nodes :=
  es.map fun e => if e.1 = key then (key, n) else e

/-- Changes the table that a path leads to, making the tables that are missing on the way. -/
def alter (dotted : Bool) (f : Origin → Nodes → Option Nodes) :
    List String → Origin → Nodes → Option Nodes
  | [], origin, es => f origin es
  | key :: path, _, es =>
    match es.lookup key with
    | none => do
      let made := if dotted then Origin.dotted else .implied
      let sub ← alter dotted f path made []
      some (es ++ [(key, .table made sub)])
    | some (.closed _) => none
    | some (.table origin sub) =>
      if dotted && origin = .header then none
      else (alter dotted f path origin sub).map fun sub => replaceKey key (.table origin sub) es
    | some (.tables items) => do
      let last ← alter dotted f path .header (← items.getLast?)
      some (replaceKey key (.tables (items.dropLast ++ [last])) es)

/-- Binds a new key. A key behind a dotted path needs a table that dotted keys made. -/
def insertEntry (es : Nodes) (e : Entry) : Option Nodes :=
  alter true (fun origin es =>
    if decide (origin = .dotted) == e.path.isEmpty then none
    else match es.lookup e.key with
      | some _ => none
      | none => some (es ++ [(e.key, .closed e.value)])) e.path .header es

def insertEntries (es : Nodes) (entries : List Entry) : Option Nodes :=
  entries.foldlM insertEntry es

/-- Adds a section to the document so far. -/
def insertSection (doc : Nodes) (s : Section) : Option Nodes :=
  match s.header with
  | .root => insertEntries doc s.entries
  | .table path key =>
    alter false (fun _ es =>
      match es.lookup key with
      | none => (insertEntries [] s.entries).map fun t => es ++ [(key, .table .header t)]
      | some (.table .implied sub) =>
        (insertEntries sub s.entries).map fun t => replaceKey key (.table .header t) es
      | some _ => none) path .header doc
  | .array path key =>
    alter false (fun _ es =>
      match es.lookup key with
      | none => (insertEntries [] s.entries).map fun t => es ++ [(key, .tables [t])]
      | some (.tables items) =>
        (insertEntries [] s.entries).map fun t => replaceKey key (.tables (items ++ [t])) es
      | some _ => none) path .header doc

mutual

/-- The finished value of a node. -/
def Node.value : Node → Value
  | .closed v => v
  | .table _ es => .table (valuesOf es)
  | .tables items => .array (tablesOf items)

def valuesOf : List (String × Node) → List (String × Value)
  | [] => []
  | (key, n) :: es => (key, n.value) :: valuesOf es

def tablesOf : List (List (String × Node)) → List Value
  | [] => []
  | es :: rest => .table (valuesOf es) :: tablesOf rest

end

/-- The table that the sections of a document make. -/
def tableOfSections (sections : List Section) : Option Table :=
  (sections.foldlM insertSection []).map valuesOf

/-- The table that the entries of an inline table make. -/
def tableOfEntries (entries : List Entry) : Option Table := (insertEntries [] entries).map valuesOf

end TypeGen.Toml
