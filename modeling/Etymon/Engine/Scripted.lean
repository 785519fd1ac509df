import Etymon.Engine.Client
import Etymon.Text.Replace

/-!
# Scripted engines

A script stands in for the rules of a language: it lists the replies to give, or it gives each rule a
list of literal replacements. A scripted engine reads its script when it starts.

## Main definitions

* `Script`: canned replies, or rules by name.
* `Script.parse`: the script that a JSON text holds.
* `Script.answer`: the lines that answer a request.
-/

namespace Etymon

structure ScriptedRule where
  name : String
  substitutions : List (String × String)

inductive Script where
  | canned (replies : List (List String))
  | table (rules : List ScriptedRule) (failures : List (String × String))

namespace Script

def substitution? : Json → Option (String × String)
  | .array [.string old, .string new] => some (old, new)
  | _ => none

def rule? (value : Json) : Option ScriptedRule := do
  let name ← (← value.member? "name").asString?
  let substitutions := ((value.member? "subs").bind Json.asArray?).getD []
  return ⟨name, substitutions.filterMap substitution?⟩

def failure? (m : String × Json) : Option (String × String) :=
  m.2.asString?.map (m.1, ·)

def ofJson (value : Json) : Script :=
  match (value.member? "rules").bind Json.asArray? with
  | some rules =>
    .table (rules.filterMap rule?)
      ((((value.member? "fail").bind Json.asObject?).getD []).filterMap failure?)
  | none =>
    let replies := ((value.member? "replies").bind Json.asArray?).getD []
    .canned (replies.map fun reply => reply.asStrings?.getD [])

/-- A text that holds no script gives no reply. -/
def parse (text : String) : Script :=
  match Json.parse? text with
  | some value => ofJson value
  | none => .canned []

/-! ## Rules -/

def ScriptedRule.apply (rule : ScriptedRule) (word : String) : String :=
  rule.substitutions.foldl (fun word (old, new) => Text.replacing word old new) word

/-- The place of the rule of a name, or `default`. -/
def place (rules : List ScriptedRule) (name : Option String) (default : Nat) : Nat :=
  match name with
  | none => default
  | some name => (rules.findIdx? fun rule => rule.name = name).getD default

/-- The rules from `start` up to `stop`. -/
def window (rules : List ScriptedRule) (start stop : Option String) : List ScriptedRule :=
  let first := place rules start 0
  let last := place rules stop rules.length
  (rules.take last).drop first

/-- A word on its way: its text, its text after the last rule of sounds, and the lines of its trace. -/
structure Progress where
  text : String
  sound : String
  lines : List String

def Progress.step (traced : Bool) (p : Progress) (rule : ScriptedRule) : Progress :=
  let next := ScriptedRule.apply rule p.text
  { text := next
    sound := if rule.name = "Romanizer" then p.sound else next
    lines := if traced then
        p.lines ++ ["Applied " ++ rule.name ++ ": " ++ p.text ++ " -> " ++ next]
      else p.lines }

def Progress.run (rules : List ScriptedRule) (traced : Bool) (word : String) : Progress :=
  rules.foldl (Progress.step traced) ⟨word, word, if traced then ["Tracing " ++ word] else []⟩

def failureLine (word message : String) : String :=
  (Json.object [("type", .string "error"), ("message", .string message),
    ("stackTrace", .array [.string "at engine", .string word])]).write

def changedLine (done : List Progress) : String :=
  (Json.object [("type", .string "changed"),
    ("words", .array (done.map fun p => .string p.text)),
    ("intermediates", .object [("phonetic", .array (done.map fun p => .string p.sound))]),
    ("traceLines", .array ((done.flatMap Progress.lines).map .string))]).write

/-- The response of rules to a request: the first word that fails decides, if one does. -/
def respond (rules : List ScriptedRule) (failures : List (String × String)) (request : Json) :
    String :=
  let words := ((request.member? "words").bind Json.asStrings?).getD []
  let traced := ((request.member? "traceWords").bind Json.asStrings?).getD []
  let name (key : String) := (request.member? key).bind Json.asString?
  let applied := window rules (name "startAt") (name "stopBefore")
  match words.findSome? fun word => (failures.lookup word).map (word, ·) with
  | some (word, message) => failureLine word message
  | none => changedLine (words.map fun word => Progress.run applied (traced.contains word) word)

/-! ## Answers -/

/-- The lines that a program prints when it prints these texts one after another. -/
def printed (texts : List String) : List String :=
  (Text.lines (Text.unlines (texts.map String.toList))).map String.ofList

/-- The answer to a line, and the script from there on; a canned reply without a response ends it. -/
def answer (script : Script) (line : String) : List String × Option Script :=
  match script with
  | .canned [] => ([], none)
  | .canned (reply :: rest) =>
    let lines := printed reply
    (lines, if lines.any looksLikeObject then some (.canned rest) else none)
  | .table rules failures =>
    match Json.parse? line with
    | some request => ([respond rules failures request], some script)
    | none => ([], none)

end Script

end Etymon
