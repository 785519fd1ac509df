/-!
# The grammar of the command line

A command line names one command below another; each takes options and operands of its own. The option
`--project` is known everywhere.

## Main definitions

* `Level`: a command, or the program itself.
* `Level.option?`, `Level.flag?`, `Level.operands`, `Level.command?`: what may stand behind it.
* `UsageError`: why a command line is answered with usage instead of being run.
-/

namespace Etymon.CommandLine

inductive Level where
  | program
  | init
  | reset
  | repl
  | book
  | compile
  | watch
  deriving DecidableEq, Repr

/-- What an option does: it takes a value, is set, or asks for help or for the version. -/
inductive Effect where
  | takesPath
  | takesText
  | sets
  | help
  | version
  deriving DecidableEq, Repr

/-- What may stand behind a command besides options. With `everything`, the first operand and whatever
follows it belong to the command, options included. -/
inductive Operands where
  | nothing
  | onePath
  | everything
  deriving DecidableEq, Repr

inductive UsageError where
  | help
  | version
  | nothingGiven
  | missingCommand
  | unknownCommand
  | unknownArgument
  | invalidValue
  | unexpectedValue
  | repeatedArgument
  deriving DecidableEq, Repr

/-- Asking for help or for the version is no mistake. -/
def UsageError.exitCode : UsageError → Nat
  | help | version => 0
  | _ => 2

namespace Level

def command? (level : Level) (name : String) : Option Level :=
  match level, name with
  | program, "init" => some init
  | program, "reset" => some reset
  | program, "repl" => some repl
  | program, "book" => some book
  | book, "compile" => some compile
  | book, "watch" => some watch
  | _, _ => none

/-- Whether a command has to be named behind the level. -/
def hasCommands : Level → Bool
  | program | book => true
  | _ => false

/-- Commands can be named, and so can the request for help about one. -/
def isCommandWord (level : Level) (word : String) : Bool :=
  level.hasCommands && (word = "help" || (level.command? word).isSome)

def option? (level : Level) (name : String) : Option Effect :=
  match level, name with
  | _, "project" => some .takesPath
  | _, "help" => some .help
  | program, "version" => some .version
  | init, "name" => some .takesText
  | init, "author" => some .takesText
  | init, "overwrite" => some .sets
  | init, "lexurgy" => some .sets
  | _, _ => none

def flag? (level : Level) (letter : Char) : Option Effect :=
  match level, letter with
  | _, 'h' => some .help
  | program, 'V' => some .version
  | _, _ => none

def operands : Level → Operands
  | init => .onePath
  | repl => .everything
  | _ => .nothing

/-- The answer to a request for help about a command. -/
def helpFor : Level → List String → UsageError
  | _, [] => .help
  | level, word :: rest =>
    match level.command? word with
    | some below => helpFor below rest
    | none => if level.isCommandWord word && rest.isEmpty then .help else .unknownCommand

end Level

end Etymon.CommandLine
