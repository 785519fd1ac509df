import Etymon.CommandLine.Grammar
import Etymon.Text.Split

/-!
# Reading the command line

Arguments are read from left to right. A value is checked once it is certain that nothing more belongs
to its option, so an argument that nothing knows is noticed before the value in front of it is.

## Main definitions

* `Given`: what a level was given so far.
* `Given.settle`: checks the value that was read last.
* `readLevel`: a command line as the levels it names, each with what it was given.
-/

namespace Etymon.CommandLine

/-- What was read last: an option and perhaps its value, or an operand. -/
inductive Pending where
  | option (name : String) (isPath : Bool) (value : Option String)
  | operand (value : String)
  deriving DecidableEq, Repr

structure Given where
  values : List (String × String)
  flags : List String
  operands : List String
  pending : Option Pending
  deriving DecidableEq, Repr

namespace Given

def nothing : Given := ⟨[], [], [], none⟩

def knows (g : Given) (name : String) : Bool :=
  (g.values.lookup name).isSome || g.flags.contains name

/-- A path must not be empty. -/
def accept (g : Given) (name : String) (isPath : Bool) (value : String) :
    Except UsageError Given :=
  if g.knows name then .error .repeatedArgument
  else if isPath && value.isEmpty then .error .invalidValue
  else .ok { g with values := g.values ++ [(name, value)] }

def settle (g : Given) : Except UsageError Given :=
  let rest := { g with pending := none }
  match g.pending with
  | none => .ok g
  | some (.option _ _ none) => .error .invalidValue
  | some (.option name isPath (some value)) => rest.accept name isPath value
  | some (.operand value) =>
    if value.isEmpty then .error .invalidValue
    else .ok { rest with operands := rest.operands ++ [value] }

/-- The option that the next argument is the value of. -/
def awaiting? (g : Given) : Option (String × Bool) :=
  match g.pending with
  | some (.option name isPath none) => some (name, isPath)
  | _ => none

def hasOperand (g : Given) : Bool :=
  match g.pending with
  | some (.operand _) => true
  | _ => !g.operands.isEmpty

def isEmpty (g : Given) : Bool :=
  g.values.isEmpty && g.flags.isEmpty && g.operands.isEmpty

/-- An option, with the value that an equals sign attaches to it. -/
def addOption (g : Given) (name : String) (effect : Effect) (attached : Option String) :
    Except UsageError Given :=
  match effect, attached with
  | .takesPath, some value => do (← g.settle).accept name true value
  | .takesText, some value => do (← g.settle).accept name false value
  | .takesPath, none => do return { ← g.settle with pending := some (.option name true none) }
  | .takesText, none => do return { ← g.settle with pending := some (.option name false none) }
  | _, some _ => .error .unexpectedValue
  | .sets, none => do
    let g ← g.settle
    if g.knows name then .error .repeatedArgument else return { g with flags := g.flags ++ [name] }
  | .help, none => do
    let _ ← g.settle
    .error .help
  | .version, none => do
    let _ ← g.settle
    .error .version

end Given

/-! ## Arguments -/

inductive Argument where
  | separator
  | long (name : String) (attached : Option String)
  | short (letters : List Char)
  | plain
  deriving DecidableEq, Repr

/-- What an argument looks like. A lone dash is no option. -/
def Argument.of (arg : String) : Argument :=
  match arg.toList with
  | ['-', '-'] => separator
  | '-' :: '-' :: body =>
    match body.takeWhile (· != '='), body.dropWhile (· != '=') with
    | name, _ :: value => long (String.ofList name) (some (String.ofList value))
    | name, [] => long (String.ofList name) none
  | '-' :: letter :: letters => short (letter :: letters)
  | _ => plain

/-- The error for an argument that stands where no operand can. -/
def misplaced (level : Level) (literal : Bool) (arg : String) : UsageError :=
  if level.hasCommands && !(literal && level.isCommandWord arg) then .unknownCommand
  else .unknownArgument

/-- What a level was given up to an argument, and whether more can follow. -/
inductive Step where
  | more (g : Given)
  | full (g : Given)
  | literally
  deriving DecidableEq, Repr

/-- Takes an argument as an operand, with `rest` behind it. -/
def takeOperand (level : Level) (g : Given) (literal : Bool) (arg : String) (rest : List String) :
    Except UsageError Step :=
  match level.operands with
  | .nothing => .error (misplaced level literal arg)
  | .onePath =>
    if g.hasOperand then .error .unknownArgument
    else do return .more { ← g.settle with pending := some (.operand arg) }
  | .everything => do return .full { ← g.settle with operands := arg :: rest }

/-- Takes an argument as the value of the option before it, else as an operand. -/
def takePlain (level : Level) (g : Given) (arg : String) (rest : List String) :
    Except UsageError Step :=
  match g.awaiting? with
  | some (name, isPath) => .ok (.more { g with pending := some (.option name isPath (some arg)) })
  | none => takeOperand level g false arg rest

/-- Takes an argument that is not behind a separator and names no command. Where everything can be an
operand, so can options that nothing knows. -/
def takeArgument (level : Level) (g : Given) (arg : String) (rest : List String) :
    Except UsageError Step :=
  let everything := level.operands = .everything
  match Argument.of arg with
  | .separator => .ok .literally
  | .plain => takePlain level g arg rest
  | .long name attached =>
    match level.option? name with
    | some effect => do return .more (← g.addOption name effect attached)
    | none => if everything then takePlain level g arg rest else .error .unknownArgument
  | .short letters =>
    if everything && letters.any fun letter => (level.flag? letter).isNone then
      takePlain level g arg rest
    else
      match letters.head?.bind level.flag? with
      | some effect => do return .more (← g.addOption "" effect none)
      | none => .error .unknownArgument

/-- A level to which nothing more is given. -/
def finish (level : Level) (g : Given) : Except UsageError Given := do
  let g ← g.settle
  if level.hasCommands then
    if g.isEmpty then .error .nothingGiven else .error .missingCommand
  else return g

/-- The levels that arguments name, outermost first, each with what it was given. Behind a separator
every argument is `literal`. -/
def readLevel (level : Level) (g : Given) (literal : Bool) :
    List String → Except UsageError (List (Level × Given))
  | [] => do return [(level, ← finish level g)]
  | arg :: rest =>
    let continueWith (step : Step) : Except UsageError (List (Level × Given)) :=
      match step with
      | .more g => readLevel level g literal rest
      | .full g => do return [(level, ← finish level g)]
      | .literally => readLevel level g true rest
    if literal then do continueWith (← takeOperand level g true arg rest)
    else
      match g.awaiting?, level.command? arg with
      | none, some below => do
        let inner ← readLevel below .nothing false rest
        return (level, ← g.settle) :: inner
      | none, none =>
        if level.isCommandWord arg then .error (level.helpFor rest)
        else do continueWith (← takeArgument level g arg rest)
      | some _, _ => do continueWith (← takeArgument level g arg rest)

end Etymon.CommandLine
