import Etymon.Failure
import Etymon.Files.Store
import Etymon.Project.Metadata
import Etymon.Text.Blank
import Etymon.Text.Replace
import Etymon.Text.ShellWords

/-!
# Finding the engine

The engine's command line comes from the environment, else from the directory that the metadata names,
else from the programs on the search path.

## Main definitions

* `Surroundings`: what a command sees of its environment.
* `Surroundings.findProgram`: a program on the search path.
* `engineCommand`: the command line of the engine for a rule file.
* `Surroundings.engineInstall`: the directory that the engine on the search path is installed in.
-/

namespace Etymon

open Text

structure Surroundings where
  customEngine : Option String
  searchPath : List Path
  deriving DecidableEq, Repr

def engineName : String := "lexurgy"

def isExecutable (files : FileStore) (p : Path) : Bool :=
  match files.find p with
  | .ok (_, .file f) => f.executable
  | _ => false

/-- The first program of a name along the search path. -/
def Surroundings.findProgram (s : Surroundings) (files : FileStore) (name : String) : Option Path :=
  (s.searchPath.map (·.child name)).find? (isExecutable files)

/-- What stands for the rule file in a command line. -/
def changesMark : String := "\x7bchanges\x7d"

/-- A command line with the rule file in the places of its mark, or else as its last word. -/
def withChanges (changes : Path) (words : List String) : List String :=
  if words.any (containing · changesMark) then words.map (replacing · changesMark changes.text)
  else words ++ [changes.text]

/-- The words of a command line from the environment. -/
def customCommand (text : String) (changes : Path) : Except Failure (List String) :=
  match shellWords? text with
  | none => .error (.during (.splitEngineCommand text) .unclosedQuote)
  | some [] => .error .emptyEngineCommand
  | some words => .ok (withChanges changes words)

/-- A command line of blanks counts for none. -/
def engineCommand (custom : Option String) (install : Option Path) (found : Option Path)
    (changes : Path) : Except Failure (List String) :=
  match (custom.map trimmed).filter (fun text => !text.isEmpty), install, found with
  | some text, _, _ => customCommand text changes
  | none, some directory, _ =>
    .ok ["sh", ((directory.child "bin").child engineName).text, "server", changes.text]
  | none, none, some program => .ok [program.text, "server", changes.text]
  | none, none, none => .error .noEngine

namespace Surroundings

def engineCommand (s : Surroundings) (metadata : Metadata) (changes : Path) (files : FileStore) :
    Except Failure (List String) :=
  Etymon.engineCommand s.customEngine metadata.engine (s.findProgram files engineName) changes

/-- The engine lies in the directory `bin` of its installation. -/
def engineInstall (s : Surroundings) (files : FileStore) : Except Failure Path := do
  let program ← Activity.findEngine.of
    (match s.findProgram files engineName with
    | some program => .ok program
    | none => .error .notOnPath)
  let program := match files.canonical program with
    | .ok canonical => canonical
    | .error _ => program
  match program.parent?.bind Path.parent? with
  | some install => return install
  | none => .error (.unexpectedLocation program)

end Surroundings

end Etymon
