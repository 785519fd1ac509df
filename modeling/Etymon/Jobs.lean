import Etymon.Book
import Etymon.CommandLine
import Etymon.Console
import Etymon.Engine.Client
import Etymon.Engine.Discovery
import Etymon.Project.MetadataFile
import Etymon.Project.Starter

/-!
# Jobs

What each job of the command line does to the files, and what it prints.

## Main definitions

* `Host`: the machine that engines run on and the surroundings of the program.
* `Host.openWorkspace`: an open project, with the engine that its metadata asks for.
* `Progress`: the files and what has been printed so far.
* `Invocation.run`: the outcome of a job.
-/

namespace Etymon

open Text

structure Host (ρ : Type) where
  machine : Machine ρ
  surroundings : Surroundings

/-- Printed lines go to the author, reports to where errors are shown. -/
structure Progress where
  files : FileStore
  printed : String
  reports : List String

namespace Progress

def start (files : FileStore) : Progress := ⟨files, "", []⟩

def print (p : Progress) (text : String) : Progress :=
  { p with printed := p.printed ++ text }

def printLine (p : Progress) (line : String) : Progress :=
  p.print (line ++ "\n")

end Progress

/-- A step of a job keeps what it did when it fails. -/
abbrev Stage (α : Type) := ExceptT Failure (StateM Progress) α

namespace Stage

def ofExcept {α : Type} (outcome : Except Failure α) : Stage α :=
  ExceptT.mk (pure outcome)

def printLine (line : String) : Stage Unit :=
  modify (·.printLine line)

/-- Changes the files. -/
def change (act : FileStore → Except Failure FileStore) : Stage Unit := do
  let files ← ofExcept (act (← get).files)
  modify fun p => { p with files }

end Stage

/-! ## Creating a project -/

/-- The files of a new project besides its metadata, in the order they are written. -/
def Project.starters (p : Project) : List (Path × String) :=
  [(p.lexiconPath, Starter.lexicon), (p.changesPath, Starter.changes), (p.bookPath, Starter.book)]

/-- The name of the directory that a path leads to. -/
def directoryName (files : FileStore) (root : Path) : Option String :=
  match files.canonical root with
  | .ok canonical => canonical.fileName?
  | .error _ => none

def makeDirectory (root : Path) : Stage Unit := do
  let (outcome, files) := (← get).files.createDirs root
  modify fun p => { p with files }
  Stage.ofExcept ((Activity.create root).of (outcome.mapError .io))

/-- Nothing that is there already is written over, unless that is asked for. -/
def checkAbsent (overwrite : Bool) (paths : List Path) : Stage Unit := do
  let files := (← get).files
  match if overwrite then none else paths.find? files.exists? with
  | some path => throw (.alreadyExists path)
  | none => return ()

def writeStarter (item : Path × String) : Stage Unit := do
  let (path, text) := item
  Stage.change fun files => (Activity.write path).of ((files.write path text).mapError .io)
  Stage.printLine ("wrote " ++ path.text)

def createProject (s : Surroundings) (fallback : Path) (o : InitOptions) : Stage Unit := do
  let root := o.directory.getD fallback
  makeDirectory root
  let project : Project := ⟨root⟩
  checkAbsent o.overwrite (project.metadataPath :: project.starters.map Prod.fst)
  let files := (← get).files
  let name := (o.name <|> directoryName files root).getD "Conlang"
  let engine ← Stage.ofExcept
    (if o.recordEngine then (s.engineInstall files).map some else .ok none)
  Stage.change fun files => Metadata.save files project.metadataPath
    { name, author := o.author, syllables := false, scope := none, engine }
  Stage.printLine ("wrote " ++ project.metadataPath.text)
  project.starters.forM writeStarter

/-! ## Removing the caches -/

def removeCaches (project : Project) : Stage Unit := do
  let directory := project.cacheDir
  if (← get).files.exists? directory then
    Stage.change fun files =>
      (Activity.remove directory).of ((files.removeDir directory).mapError .io)
    Stage.printLine ("removed " ++ directory.text)
  else Stage.printLine ("no cache at " ++ directory.text)

/-! ## Working on a project -/

namespace Host

variable {ρ : Type}

/-- The engine of a project; why its command cannot be found is told when it is needed. -/
def program (h : Host ρ) (project : Project) (metadata : Metadata) : Program ρ where
  toMachine := h.machine
  command files :=
    (h.surroundings.engineCommand metadata project.changesPath files).mapError Failure.message

def openWorkspace (h : Host ρ) (root : Path) (files : FileStore) :
    Except Failure (Engine (Client ρ) × Workspace (Client ρ)) := do
  let project : Project := ⟨root⟩
  let metadata ← (Activity.openProject root).of (Metadata.load files project.metadataPath)
  return (Client.engine (h.program project metadata),
    ⟨files, .opened files project metadata .idle, []⟩)

/-- Works on an open project, whose caches are saved at the end whatever the outcome. -/
def working (h : Host ρ) (root : Path)
    (work : Engine (Client ρ) → Workspace (Client ρ) →
      String × Except Failure Unit × Workspace (Client ρ)) : Stage Unit := do
  let (engine, w) ← Stage.ofExcept (h.openWorkspace root (← get).files)
  let (printed, outcome, w) := work engine w
  modify fun p =>
    { p with
      files := w.session.close w.files
      printed := p.printed ++ printed
      reports := p.reports ++ w.reports }
  Stage.ofExcept outcome

end Host

variable {ρ : Type}

/-- A dialogue over the input, or a single command, whose failure is told as the console tells it. -/
def consoleJob (words : List String) (input : String) (engine : Engine (Client ρ))
    (w : Workspace (Client ρ)) : String × Except Failure Unit × Workspace (Client ρ) :=
  match words with
  | [] => Console.converse engine input w
  | words =>
    let (printed, outcome, w) := Console.once engine (joinWith " " words) w
    (printed, outcome.mapError fun f => .reported f.describe, w)

def compileJob (engine : Engine (Client ρ)) (w : Workspace (Client ρ)) :
    String × Except Failure Unit × Workspace (Client ρ) :=
  let act : Action (Workspace (Client ρ)) Path := do
    let path ← Book.compile engine
    Workspace.flush
    return path
  match act.result w with
  | (.ok path, w) => ("wrote " ++ path.text ++ "\n", .ok (), w)
  | (.error e, w) => ("", .error (.error e), w)

/-- What is said before the book is watched. -/
def watchNotice (project : Project) : String :=
  "watching " ++ project.bookPath.text ++ " (ctrl-c to stop)\n"

/-- Watching begins with a first look at the book. -/
def watchJob (engine : Engine (Client ρ)) (w : Workspace (Client ρ)) :
    String × Except Failure Unit × Workspace (Client ρ) :=
  let (printed, p) := Book.round engine ⟨w, none⟩
  (watchNotice w.session.project ++ printed, .ok (), p.workspace)

def Job.stage (h : Host ρ) (root : Path) (input : String) : Job → Stage Unit
  | .init options => createProject h.surroundings root options
  | .reset => removeCaches ⟨root⟩
  | .console words => h.working root (consoleJob words input)
  | .compile => h.working root compileJob
  | .watch => h.working root watchJob

/-- The outcome of a job, with the text that is typed while it runs. -/
def Invocation.run (h : Host ρ) (i : Invocation) (input : String) (files : FileStore) :
    Except Failure Unit × Progress :=
  ((i.job.stage h i.project input).run).run (.start files)

end Etymon
