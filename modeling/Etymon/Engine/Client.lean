import Etymon.Engine
import Etymon.Text.Blank

/-!
# The engine as a process

An engine runs as a process of its own. It gets a request as one line and answers with lines, of which
the first that looks like an object is the response. Lines written after it stay in the pipe and are
read with the next response.

## Main definitions

* `Machine`: how a command is started as a program, and how the program answers lines.
* `Program`: a machine, and how the engine's command is found.
* `Process`: a running engine and the lines that it has written and nobody has read.
* `exchange`: a request and its response.
* `Client`: the command once it is known, and the process while there is one.
* `Client.engine`: the process as an engine.
-/

namespace Etymon

open Text

/-- The states of a running program are `ρ`. It may exit after it has answered. -/
structure Machine (ρ : Type) where
  launch : FileStore → List String → Except IoFault ρ
  answer : ρ → String → List String × Option ρ

structure Program (ρ : Type) extends Machine ρ where
  command : FileStore → Except String (List String)

/-- A process without a state has exited. -/
structure Process (ρ : Type) where
  state : Option ρ
  unread : List String

structure Client (ρ : Type) where
  command : Option (List String)
  process : Option (Process ρ)

/-- Whether a line can be a response. -/
def looksLikeObject (line : String) : Bool :=
  (trim line.toList).head? = some '{'

/-- The first line that can be a response, and the lines after it. -/
def firstResponse? (lines : List String) : Option (String × List String) :=
  match lines.dropWhile fun line => !looksLikeObject line with
  | [] => none
  | line :: rest => some (trimmed line, rest)

/-- Writes a line to a process and reads its response; `none` when the process exits without one. -/
def exchange {ρ : Type} (program : Program ρ) (line : String) (process : Process ρ) :
    Option (String × Process ρ) :=
  let (written, state) := match process.state with
    | none => ([], none)
    | some state => program.answer state line
  (firstResponse? (process.unread ++ written)).map fun (response, unread) =>
    (response, ⟨state, unread⟩)

namespace Client

variable {ρ : Type}

def idle : Client ρ := ⟨none, none⟩

/-- A client that will run the given command. -/
def ofCommand (command : List String) : Client ρ := ⟨some command, none⟩

/-- Finds the command at the first need and keeps it. -/
def findCommand (program : Program ρ) (files : FileStore) (c : Client ρ) :
    Except Error (List String) :=
  match c.command with
  | some command => .ok command
  | none => (program.command files).mapError .engineUnavailable

/-- Starts the process of a command. -/
def start (program : Program ρ) (files : FileStore) (command : List String) :
    Except Error (Process ρ) :=
  match command with
  | [] => .error (.engineUnavailable "engine command is empty")
  | name :: _ =>
    match program.launch files command with
    | .error fault => .error (.engineUnavailable ("spawn " ++ name ++ ": " ++ fault.message))
    | .ok state => .ok ⟨some state, []⟩

/-- The running process, started if there is none. -/
def running (program : Program ρ) (files : FileStore) (c : Client ρ) :
    Except Error (Process ρ) × Client ρ :=
  match c.process with
  | some process => (.ok process, c)
  | none =>
    match c.findCommand program files with
    | .error e => (.error e, c)
    | .ok command =>
      match start program files command with
      | .error e => (.error e, ⟨some command, none⟩)
      | .ok process => (.ok process, ⟨some command, some process⟩)

/-- Only an engine that is not running can fail to be there: its command is not found, or cannot be
started. -/
theorem unavailable_of_running {program : Program ρ} {files : FileStore} {c c' : Client ρ} {e : Error}
    (h : c.running program files = (.error e, c')) :
    (∃ reason, e = .engineUnavailable reason) ∧ c.process = none ∧ c'.process = none := by
  unfold running at h
  split at h
  · cases h
  · next hnone =>
    split at h
    · next hfind =>
      cases h
      unfold findCommand at hfind
      split at hfind
      · cases hfind
      · cases hcommand : program.command files <;> rw [hcommand] at hfind <;> cases hfind
        exact ⟨⟨_, rfl⟩, hnone, hnone⟩
    · split at h
      · next hstart =>
        cases h
        unfold start at hstart
        split at hstart
        · cases hstart
          exact ⟨⟨_, rfl⟩, hnone, rfl⟩
        · split at hstart <;> cases hstart
          exact ⟨⟨_, rfl⟩, hnone, rfl⟩
      · cases h

/-- The engine that is there was running already, or it has just been started. -/
theorem process_of_running {program : Program ρ} {files : FileStore} {c c' : Client ρ}
    {process : Process ρ} (h : c.running program files = (.ok process, c')) :
    c.process = some process ∧ c' = c ∨
      c.process = none ∧ c'.process = some process ∧ ∃ state, process = ⟨some state, []⟩ := by
  unfold running at h
  split at h
  · next hsome =>
    cases h
    exact .inl ⟨hsome, rfl⟩
  · next hnone =>
    split at h
    · cases h
    · split at h
      · cases h
      · next hstart =>
        cases h
        unfold start at hstart
        split at hstart
        · cases hstart
        · split at hstart <;> cases hstart
          exact .inr ⟨hnone, rfl, _, rfl⟩

/-- Sends a request and decodes its response. A process that does not respond is given up. -/
def evolve (program : Program ρ) (files : FileStore) (r : Request) (c : Client ρ) :
    Except Error Changed × Client ρ :=
  match c.running program files with
  | (.error e, c) => (.error e, c)
  | (.ok process, c) =>
    match exchange program r.line process with
    | none => (.error (.engineUnavailable "engine exited before responding"), { c with process := none })
    | some (response, process) => (Changed.parse response r, { c with process := some process })

/-- Ends the process; what it has written is lost. -/
def reset (c : Client ρ) : Client ρ :=
  { c with process := none }

def engine (program : Program ρ) : Engine (Client ρ) where
  evolve := evolve program
  reset := reset

end Client

end Etymon
