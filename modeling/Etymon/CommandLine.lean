import Etymon.CommandLine.Reading
import Etymon.Files.Path
import Etymon.Text.Split

/-!
# The command line

## Main definitions

* `Job`: what can be done with a project.
* `Invocation`: a job and the project it is for.
* `Invocation.parse`: the invocation that the arguments of the program ask for.
-/

namespace Etymon

open CommandLine

/-- How a project is created: in a directory of its own if one is given, under a name if one is. -/
structure InitOptions where
  directory : Option Path
  name : Option String
  author : String
  overwrite : Bool
  recordEngine : Bool
  deriving DecidableEq, Repr

/-- Without words, the console is interactive. -/
inductive Job where
  | init (options : InitOptions)
  | reset
  | console (words : List String)
  | compile
  | watch
  deriving DecidableEq, Repr

structure Invocation where
  project : Path
  job : Job
  deriving DecidableEq, Repr

namespace Invocation

def initOptions (g : Given) : InitOptions where
  directory := g.operands.head?.map Path.mk
  name := g.values.lookup "name"
  author := (g.values.lookup "author").getD ""
  overwrite := g.flags.contains "overwrite"
  recordEngine := g.flags.contains "lexurgy"

/-- The job of the innermost level; a level that has commands below it is never the innermost. -/
def jobOf : Level → Given → Option Job
  | .init, g => some (.init (initOptions g))
  | .reset, _ => some .reset
  | .repl, g => some (.console g.operands)
  | .compile, _ => some .compile
  | .watch, _ => some .watch
  | .program, _ | .book, _ => none

/-- The project that is named last, or the current directory. -/
def projectOf (levels : List (Level × Given)) : Path :=
  ⟨((levels.reverse.findSome? fun (_, g) => g.values.lookup "project")).getD "."⟩

def parse (args : List String) : Except UsageError Invocation := do
  let levels ← readLevel .program .nothing false args
  match levels.getLast?.bind fun (level, g) => jobOf level g with
  | some job => return ⟨projectOf levels, job⟩
  | none => .error .missingCommand

end Invocation

end Etymon
