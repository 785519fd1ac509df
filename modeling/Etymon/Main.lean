import Etymon.Jobs

/-!
# The program

The command line on real files. The files of the project are taken into a store, the job runs on the
store, and what has changed is written back. Engines cannot be started from here, so evolving reports
the engine as unavailable; everything else works without one.

## Main definitions

* `main`: runs the job that the arguments ask for.
-/

namespace Etymon.Main

open Text

/-- Programs are found but not started. -/
def machine : Machine Unit where
  launch _ _ := .error .notSupported
  answer _ _ := ([], none)

def usage : String :=
  ofLines [
    "usage: etymon [--project DIR] COMMAND",
    "  init [DIR] [--name NAME] [--author AUTHOR] [--overwrite] [--lexurgy]",
    "  reset",
    "  repl [COMMAND...]",
    "  book compile|watch"]

def version : String := "etymon 0.1.0"

/-! ## Files -/

def locationOf (here : Location) (p : Path) : Location :=
  p.segments.foldl FileStore.step (if p.isAbsolute then [] else here)

def textOf (l : Location) : String :=
  (FileStore.absolute l).text

/-- What is at a location, if it can be read. -/
def nodeAt (l : Location) (executable : Bool) : IO (Option Node) := do
  try
    let place ← IO.FS.realPath (textOf l)
    let found ← place.metadata
    let time := found.modified.sec.toNat * 1000000000 + found.modified.nsec.toNat
    match found.type with
    | .dir => return some (.directory time)
    | _ => return some (.file ⟨← IO.FS.readFile (textOf l), time, executable⟩)
  catch _ => return none

/-- Takes a location and everything below it into a store. -/
partial def takeTree (s : FileStore) (l : Location) : IO FileStore := do
  match ← nodeAt l false with
  | none => return s
  | some (.file f) => return s.set l (.file f)
  | some (.directory time) =>
    let mut s := if l.isEmpty then s else s.set l (.directory time)
    for entry in ← (← IO.FS.realPath (textOf l)).readDir do
      s ← takeTree s (l ++ [entry.fileName])
    return s

/-- Takes the directories on the way to a location into a store. -/
def takeWay (s : FileStore) (l : Location) : IO FileStore := do
  let mut s := s
  for n in List.range l.length do
    match ← nodeAt (l.take n) false with
    | some (.directory time) => s := if n = 0 then s else s.set (l.take n) (.directory time)
    | _ => pure ()
  return s

/-- Takes a program into a store, if it exists. -/
def takeProgram (s : FileStore) (l : Location) : IO FileStore := do
  try
    let _ ← IO.FS.realPath (textOf l)
    return (← takeWay s l).set l (.file ⟨"", 0, true⟩)
  catch _ => return s

/-- The store that a job for a directory works on. -/
def takeStore (here root : Location) (programs : List Location) : IO FileStore := do
  let mut s : FileStore := ⟨here, [], 0⟩
  s ← takeWay s (here ++ [""])
  s ← takeWay s root
  s ← takeTree s root
  for l in programs do
    s ← takeProgram s l
  return s

/-- Writes the changes between two stores. -/
def writeBack (old new : FileStore) : IO Unit := do
  for (l, node) in old.nodes do
    if (new.node? l).isNone then
      match node with
      | .file _ => IO.FS.removeFile (textOf l)
      | .directory _ => pure ()
  for (l, node) in old.nodes do
    if (new.node? l).isNone then
      match node with
      | .directory _ => try IO.FS.removeDirAll (textOf l) catch _ => pure ()
      | .file _ => pure ()
  for (l, node) in new.nodes do
    match node, old.node? l with
    | .directory _, none => IO.FS.createDirAll (textOf l)
    | _, _ => pure ()
  for (l, node) in new.nodes do
    match node, old.node? l with
    | .file f, some (.file g) =>
      if f.text ≠ g.text then IO.FS.writeFile (textOf l) f.text
    | .file f, _ => IO.FS.writeFile (textOf l) f.text
    | .directory _, _ => pure ()

/-! ## Jobs -/

def tellReports (reports : List String) : IO Unit :=
  reports.forM fun line => IO.eprintln line

/-- The exit code of an outcome, after its failure has been told. -/
def exitCode (outcome : Except Failure Unit) : IO UInt32 := do
  match outcome with
  | .ok () => return 0
  | .error f =>
    IO.eprintln ("Error: " ++ f.message)
    return 1

abbrev Bench := Workspace (Client Unit)

/-- Answers lines until the dialogue ends. -/
partial def converse (engine : Engine (Client Unit)) (w : Bench) : IO Bench := do
  IO.print Console.prompt
  (← IO.getStdout).flush
  let line ← (← IO.getStdin).getLine
  if line.isEmpty then
    IO.println ""
    return w
  else
    let text := match lines line.toList with
      | [] => ""
      | first :: _ => String.ofList first
    match Console.answerLine engine text w with
    | (none, w) => return w
    | (some reply, w) =>
      IO.print reply
      converse engine w

/-- Looks at the book again and again. -/
partial def watch (engine : Engine (Client Unit)) (take : IO FileStore)
    (p : Book.Press (Client Unit)) : IO Unit := do
  let files ← take
  let (printed, p) := Book.round engine { p with workspace := { p.workspace with files } }
  writeBack files p.workspace.files
  IO.print printed
  (← IO.getStdout).flush
  tellReports p.workspace.reports
  IO.sleep 500
  watch engine take { p with workspace := { p.workspace with reports := [] } }

def interact (host : Host Unit) (root : Path) (files : FileStore) : IO UInt32 := do
  match host.openWorkspace root files with
  | .error f => exitCode (.error f)
  | .ok (engine, w) =>
    let (outcome, w) := Console.finish (← converse engine w)
    writeBack files (w.session.close w.files)
    exitCode outcome

def watchBook (host : Host Unit) (root : Path) (take : IO FileStore) : IO UInt32 := do
  match host.openWorkspace root (← take) with
  | .error f => exitCode (.error f)
  | .ok (engine, w) =>
    IO.print (watchNotice w.session.project)
    watch engine take ⟨w, none⟩
    return 0

def runOnce (host : Host Unit) (i : Invocation) (files : FileStore) : IO UInt32 := do
  let (outcome, progress) := i.run host "" files
  writeBack files progress.files
  IO.print progress.printed
  tellReports progress.reports
  exitCode outcome

/-- The directory that a job works in. -/
def rootOf (i : Invocation) : Path :=
  match i.job with
  | .init o => o.directory.getD i.project
  | _ => i.project

def start (i : Invocation) : IO UInt32 := do
  let here := locationOf [] ⟨(← IO.currentDir).toString⟩
  let searchPath := match ← IO.getEnv "PATH" with
    | some text => (splitOn ':' text.toList).map fun part => (⟨String.ofList part⟩ : Path)
    | none => []
  let host : Host Unit := ⟨machine, ⟨← IO.getEnv engineVariable, searchPath⟩⟩
  let programs := searchPath.map fun p => locationOf here (p.child engineName)
  let take := takeStore here (locationOf here (rootOf i)) programs
  match i.job with
  | .console [] => interact host i.project (← take)
  | .watch => watchBook host i.project take
  | _ => runOnce host i (← take)

end Etymon.Main

open Etymon

def main (args : List String) : IO UInt32 := do
  match Invocation.parse args with
  | .ok i => Main.start i
  | .error .version =>
    IO.println Main.version
    return 0
  | .error e =>
    if e.exitCode = 0 then IO.print Main.usage else IO.eprint Main.usage
    return e.exitCode.toUInt32
