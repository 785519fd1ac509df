import Etymon.Text.Blank
import Etymon.Text.Lines
import Etymon.Workspace

/-!
# The console

An author types one command a line. A line that does not start with the name of a command is a sentence
to be evolved. A failing command is answered with its failure, and the dialogue goes on.

## Main definitions

* `Verb`: what can be asked for.
* `Command.parse`: a line as a verb and its argument.
* `Console.perform`: the reply to a command.
* `Console.once`: one command, then the caches are saved.
* `Console.converse`: a dialogue up to its end or to a command that quits.
-/

namespace Etymon

open Text

inductive Verb where
  | evolve
  | trace
  | resolve
  | lookup
  | inflect
  | help
  | quit
  deriving DecidableEq, Repr

/-- The verb that a word calls for. -/
def Verb.named? (word : String) : Option Verb :=
  match word with
  | "evolve" => some evolve
  | "trace" => some trace
  | "resolve" => some resolve
  | "lookup" => some lookup
  | "inflect" => some inflect
  | "help" | "?" => some help
  | "quit" | "exit" => some quit
  | _ => none

structure Command where
  verb : Verb
  argument : String
  deriving DecidableEq, Repr

/-- The first word of a text and what follows the blank behind it. -/
def firstWord (cs : List Char) : List Char × List Char :=
  match cutAtBlank cs with
  | some (head, rest) => (head, trim rest)
  | none => (cs, [])

def Command.parse (line : String) : Command :=
  let cs := trim line.toList
  let (head, rest) := firstWord cs
  match Verb.named? (String.ofList head) with
  | some verb => ⟨verb, String.ofList rest⟩
  | none => ⟨.evolve, String.ofList cs⟩

/-! ## Wording -/

def helpText : String :=
  joinWith "\n" [
    "commands:",
    "  evolve SENTENCE   evolve each word (default for bare input)",
    "  trace SENTENCE    evolve and list every rule that changed each word",
    "  resolve SENTENCE  show each word's resolved compound form",
    "  lookup [SENTENCE] describe every lexeme, affix and morpheme named",
    "                    (every entry when no sentence is given)",
    "  inflect SENTENCE  evolve every template inflection of each lexeme",
    "  help              show this message",
    "  quit | exit       leave the REPL"]

/-- The modern form, the phonetic one between slashes, and the starred one it comes from. -/
def Evolved.render (e : Evolved) : String :=
  e.modern ++ " /" ++ e.phonetic ++ "/ *" ++ e.proto

def TraceLine.render (l : TraceLine) : String :=
  l.rule ++ ": " ++ l.before ++ " -> " ++ l.after

def renderTraced (found : Evolved × Trace) : List String :=
  found.1.render :: found.2.flatMap fun (word, lines) =>
    ("  " ++ word) :: lines.map fun line => "    " ++ line.render

def renderDescribed (name description : String) : String :=
  name ++ ": " ++ description

def renderInflected (found : Lexeme × List (Frame × Evolved)) : List String :=
  found.1.render :: found.2.map fun (pattern, e) => "  " ++ pattern.render ++ ": " ++ e.render

/-! ## Commands -/

inductive Reply where
  | text (s : String)
  | quit
  deriving DecidableEq, Repr

namespace Console

variable {σ : Type}

/-- The lines that answer a verb that goes with a sentence. -/
def answer (engine : Engine σ) (verb : Verb) (sentence : String) :
    Action (Workspace σ) (List String) :=
  Workspace.onSession fun files =>
    match verb with
    | .trace => do return (← Session.trace engine files sentence).flatMap renderTraced
    | .resolve => do return (← Session.resolve files sentence).map Form.render
    | .lookup => do
      return (← Session.lookup files sentence).map fun (item, description) =>
        renderDescribed item.render description
    | .inflect => do return (← Session.inflect engine files sentence).flatMap renderInflected
    | _ => do return (← Session.evolve engine files sentence).map Evolved.render

/-- The lines that list every entry. -/
def listing : Action (Workspace σ) (List String) :=
  Workspace.onSession fun files => do
    return (← Session.entries files).map fun (l, description) => renderDescribed l.render description

/-- Runs an action for its lines. -/
def replyWith (act : Action (Workspace σ) (List String)) (w : Workspace σ) :
    Except Failure Reply × Workspace σ :=
  let (outcome, w) := act.result w
  ((outcome.map fun ls => .text (ofLines ls)).mapError .error, w)

/-- The reply to a command. Only listing every entry, help and quitting need no sentence. -/
def perform (engine : Engine σ) (c : Command) (w : Workspace σ) :
    Except Failure Reply × Workspace σ :=
  match c.verb with
  | .help => (.ok (.text (ofLines [helpText])), w)
  | .quit => (.ok .quit, w)
  | verb =>
    if c.argument.isEmpty then
      if verb = .lookup then replyWith listing w else (.error .missingSentence, w)
    else replyWith (answer engine verb c.argument) w

/-- Saves the caches as the last thing that a dialogue does. -/
def finish (w : Workspace σ) : Except Failure Unit × Workspace σ :=
  let (outcome, w) := Workspace.flush.result w
  (Activity.flushCaches.of (outcome.mapError .error), w)

/-- One command, then the caches are saved. A failing command saves nothing. The text is what was
printed by then. -/
def once (engine : Engine σ) (line : String) (w : Workspace σ) :
    String × Except Failure Unit × Workspace σ :=
  match perform engine (.parse line) w with
  | (.error f, w) => ("", .error f, w)
  | (.ok (.text s), w) => (s, finish w)
  | (.ok .quit, w) => ("", finish w)

/-! ## Dialogues -/

def prompt : String := "> "

/-- The answer to a line of a dialogue; `none` when it ends the dialogue. -/
def answerLine (engine : Engine σ) (line : String) (w : Workspace σ) :
    Option String × Workspace σ :=
  if (trim line.toList).isEmpty then (some "", w)
  else
    match perform engine (.parse line) w with
    | (.ok (.text s), w) => (some s, w)
    | (.ok .quit, w) => (none, w)
    | (.error f, w) => (some (f.describe ++ "\n"), w)

/-- What is printed while the lines are typed; the end of the input ends the last line. -/
def transcript (engine : Engine σ) : List String → Workspace σ → String × Workspace σ
  | [], w => (prompt ++ "\n", w)
  | line :: rest, w =>
    match answerLine engine line w with
    | (none, w) => (prompt, w)
    | (some s, w) =>
      let (printed, w) := transcript engine rest w
      (prompt ++ s ++ printed, w)

/-- A dialogue over the lines of a text, then the caches are saved. -/
def converse (engine : Engine σ) (input : String) (w : Workspace σ) :
    String × Except Failure Unit × Workspace σ :=
  let (printed, w) := transcript engine ((lines input.toList).map String.ofList) w
  (printed, finish w)

end Console

end Etymon
