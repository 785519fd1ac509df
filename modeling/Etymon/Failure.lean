import Etymon.Error

/-!
# Failures of commands

A command fails for an error of the pipeline or for a reason of its own, perhaps while it was busy with
something larger. The text of a failure goes from the outermost activity to the cause.

## Main definitions

* `Activity`: what a command was busy with.
* `Failure`: a cause inside its activities.
* `Failure.message`: the chain of activities and the cause.
* `Failure.error?`: the error of the pipeline behind a failure.
* `Failure.describe`: what an author is shown.
-/

namespace Etymon

/-- The variable of the environment that holds the engine's command line. -/
def engineVariable : String := "CONLANG_ENGINE_COMMAND"

inductive Activity where
  | openProject (root : Path)
  | read (path : Path)
  | write (path : Path)
  | create (path : Path)
  | remove (path : Path)
  | splitEngineCommand (text : String)
  | findEngine
  | flushCaches
  deriving DecidableEq, Repr

def Activity.message : Activity → String
  | openProject root => "load project at " ++ root.text
  | read path => "read " ++ path.text
  | write path => "write " ++ path.text
  | create path => "create " ++ path.text
  | remove path => "remove " ++ path.text
  | splitEngineCommand text => "parse " ++ engineVariable ++ ": " ++ text
  | findEngine => "locate lexurgy on PATH"
  | flushCaches => "flush evolution caches"

inductive Failure where
  | error (e : Error)
  | io (fault : IoFault)
  | malformedMetadata (path : Path)
  | missingSentence
  | alreadyExists (path : Path)
  | unclosedQuote
  | emptyEngineCommand
  | noEngine
  | notOnPath
  | unexpectedLocation (path : Path)
  | reported (text : String)
  | during (activity : Activity) (cause : Failure)
  deriving DecidableEq, Repr

namespace Failure

/-- A fault of the file system is told twice: in the error that holds it, and as its cause. -/
def message : Failure → String
  | error (.io path fault) => (Error.io path fault).message ++ ": " ++ fault.message
  | error e => e.message
  | io fault => fault.message
  | malformedMetadata path => "parse " ++ path.text
  | missingSentence => "missing sentence; try `help`"
  | alreadyExists path =>
    "project file already exists at " ++ path.text ++ " (use --overwrite to overwrite)"
  | unclosedQuote => "missing closing quote"
  | emptyEngineCommand => engineVariable ++ " is empty"
  | noEngine =>
    "lexurgy not found; set " ++ engineVariable ++
      ", add `lexurgy` to metadata.toml, or put lexurgy on PATH"
  | notOnPath => "cannot find binary path"
  | unexpectedLocation path => "unexpected lexurgy location " ++ path.text
  | reported text => text
  | during activity cause => activity.message ++ ": " ++ cause.message

/-- The error of the pipeline that a failure comes from. -/
def error? : Failure → Option Error
  | error e => some e
  | during _ cause => cause.error?
  | _ => none

/-- An error of the pipeline by its kind, anything else by its whole chain. -/
def describe (f : Failure) : String :=
  match f.error? with
  | some e => e.describe
  | none => "error: " ++ f.message

end Failure

/-- The outcome of something done as part of an activity. -/
def Activity.of {α : Type} (activity : Activity) (outcome : Except Failure α) : Except Failure α :=
  outcome.mapError (.during activity)

end Etymon
