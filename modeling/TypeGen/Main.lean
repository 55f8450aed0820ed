import TypeGen.Command.Run

/-!
The command line. What a request may look at is read from the disk of the machine, the request is
run on that, and what it changed is written back. No program is started from here, so formatting has
to be switched off.
-/

namespace TypeGen.Command

open TypeGen.Project TypeGen.Spec TypeGen.Store

/-- The name of a place on the machine. -/
def nameOf (place : Place) : String := (FilePath.mk true place).text

def placeOf (name : String) : Place := (FilePath.ofString name).components.filterMap fun
  | .name s => some s
  | _ => none

/-- What is at a place of the machine; none when nothing is. -/
def entryOf (place : Place) : IO (Option Entry) := do
  try
    let name := nameOf place
    match (← (System.mkFilePath [name]).symlinkMetadata).type with
    | .dir => return some .directory
    | .symlink => return some (.link (FilePath.ofString (← IO.FS.realPath name).toString))
    | _ =>
      match String.fromUTF8? (← IO.FS.readBinFile name) with
      | some text => return some (.file (.text text))
      | none => return some (.file .binary)
  catch _ => return none

/-- Reads what is at a place, the directories that it is in first. -/
def readPlace (t : FileTree) (place : Place) : IO FileTree := do
  let mut t := t
  for n in List.range (place.length + 1) do
    let here := place.take n
    if (t.get? here).isNone then
      if let some e ← entryOf here then t := (t.put? here e).getD t
  return t

/-- Reads a directory and all that is in it. -/
partial def readBelow (t : FileTree) (place : Place) : IO FileTree := do
  let mut t ← readPlace t place
  if t.get? place = some .directory then
    try
      for entry in ← (System.mkFilePath [nameOf place]).readDir do
        t ← readBelow t (place ++ [entry.fileName])
    catch _ => pure ()
  return t

/-- Reads what a path leads through, and the configurations on the way. -/
def readAlong (t : FileTree) (p : FilePath) : IO FileTree := do
  let mut t := t
  for q in p.ancestors do
    try
      let real := placeOf (← IO.FS.realPath q.text).toString
      t ← readPlace (← readPlace t (placeOf q.text)) real
      t ← readPlace t (real ++ [configFile])
    catch _ => pure ()
  return t

/-- The paths that a request names. -/
def Request.paths : Request → List FilePath
  | .generate root specs _ _ => root.toList ++ specs
  | .check root specs => root.toList ++ specs
  | .outdated root _ => root.toList
  | _ => []

def Request.root? : Request → Option FilePath
  | .generate root _ _ _ => root
  | .check root _ => root
  | .outdated root _ => root
  | _ => none

def diskOf? (t : FileTree) (home : Place) : Option Disk :=
  if h : t.get? home = some .directory then some ⟨t, home, h⟩ else none

/-- Reads what a request that is made in some directory may look at. -/
def readDisk (home : Place) (r : Request) : IO (Option Disk) := do
  let cwd : FilePath := ⟨true, home⟩
  let mut t ← readAlong FileTree.empty cwd
  for p in r.paths do
    let p := FilePath.absolute cwd p
    t ← readAlong t p
    if let some parent := p.parent? then
      for entry in ← (System.mkFilePath [parent.text]).readDir do
        t ← readPlace t (placeOf parent.text ++ [entry.fileName])
  let some d := diskOf? t home | return none
  match layoutOf d r.root? with
  | .ok l => return diskOf? (← readBelow t (placeOf l.root.text)) home
  | .error _ => return some d

/-- Makes the machine follow a change from one tree to another. -/
def writeBack (before after : FileTree) : IO Unit := do
  for (place, _) in before.entries do
    if (after.get? place).isNone then IO.FS.removeFile (nameOf place)
  for (place, e) in after.entries do
    if before.get? place ≠ some e then
      match e with
      | .directory => IO.FS.createDirAll (nameOf place)
      | .file (.text text) => IO.FS.writeFile (nameOf place) text
      | _ => pure ()

end TypeGen.Command

open TypeGen.Command in
def main (words : List String) : IO UInt32 := do
  let request := Request.ofWords words
  let home := placeOf (← IO.FS.realPath (← IO.currentDir)).toString
  let some d ← readDisk home request | return 1
  let (after, reply) := request.run (fun _ _ _ _ => none) d
  writeBack d.tree after.tree
  IO.print reply.output
  for complaint in reply.complaints do IO.eprintln complaint
  return reply.code.toUInt32
