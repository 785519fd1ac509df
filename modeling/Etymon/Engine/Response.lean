import Etymon.Engine.Request
import Etymon.Engine.TraceLine

/-!
# Responses of the engine

The engine answers a request with one line of JSON. It reports the changed words, or an error with
the engine's own stack trace.

## Main definitions

* `Changed`: the modern and phonetic form of each word, and what changed them.
* `Changed.parse`: what a line answers to a request.
-/

namespace Etymon

structure Changed where
  words : List String
  phonetic : List String
  trace : List TraceLine
  deriving DecidableEq, Repr

/-- A line that is too long to be shown is cut after eighty characters. -/
def abbreviate (line : String) : String :=
  let shown := line.toList.take 80
  if shown.length < line.toList.length then String.ofList shown ++ "..." else line

namespace Changed

/-- The phonetic forms among the intermediate ones, if they are given. -/
def phoneticOf? (intermediates : Json) : Option (Option (List String)) :=
  if intermediates.hasArity 1 then
    intermediates.defaulted? (Json.nullable? Json.asStrings?) none 0 "phonetic"
  else none

/-- The words, phonetic forms and trace lines of a message; forms that are not given are the words. -/
def fields? (message : Json) : Option (List String × List String × List String) := do
  let words ← message.required? Json.asStrings? 0 "words"
  let phonetic ← message.defaulted? (Json.nullable? phoneticOf?) none 1 "intermediates"
  let trace ← message.defaulted? Json.asStrings? [] 2 "traceLines"
  return (words, phonetic.join.getD words, trace)

/-- A message answers a request when it has one modern and one phonetic form for each word. -/
def ofMessage (message : Json) (r : Request) : Except Error Changed :=
  match fields? message with
  | none => .error (.protocol (.malformed "changed"))
  | some (words, phonetic, trace) =>
    if words.length = r.words.length ∧ phonetic.length = r.words.length then
      .ok ⟨words, phonetic, TraceLine.parse (Text.joinWith "\n" trace).toList (r.words.headD "")⟩
    else .error (.protocol (.counts r.words.length words.length phonetic.length))

end Changed

/-- The error that a message reports. -/
def reportedError (message : Json) : Error :=
  let fields := do
    let reason ← message.required? Json.asString? 0 "message"
    let stack ← message.defaulted? Json.asStrings? [] 1 "stackTrace"
    return (reason, stack)
  match fields with
  | none => .protocol (.malformed "error")
  | some (reason, stack) => .evolve reason stack

def Changed.parse (line : String) (r : Request) : Except Error Changed :=
  match (Json.parse? line).map Json.sorted with
  | none => .error (.protocol .notJson)
  | some message =>
    match (message.member? "type").bind Json.asString? with
    | none => .error (.untypedResponse (abbreviate line))
    | some "changed" => Changed.ofMessage message r
    | some "error" => .error (reportedError message)
    | some kind => .error (.unknownResponse kind)

/-- There is one modern and one phonetic form for each word of the request. -/
theorem Changed.length_eq_of_parse {line : String} {r : Request} {changed : Changed}
    (h : Changed.parse line r = .ok changed) :
    changed.words.length = r.words.length ∧ changed.phonetic.length = r.words.length := by
  unfold Changed.parse at h
  split at h
  · simp at h
  · split at h
    · simp at h
    · unfold Changed.ofMessage at h
      split at h
      · simp at h
      · split at h
        · next hlen =>
          simp only [Except.ok.injEq] at h
          subst h
          exact hlen
        · simp at h
    · simp at h
    · simp at h

/-- What a line can be refused for. -/
theorem Changed.error_of_parse {line : String} {r : Request} {e : Error}
    (h : Changed.parse line r = .error e) :
    (∃ violation, e = .protocol violation) ∨ (∃ shown, e = .untypedResponse shown) ∨
      (∃ kind, e = .unknownResponse kind) ∨ ∃ reason stack, e = .evolve reason stack := by
  unfold Changed.parse at h
  split at h
  · cases h
    exact .inl ⟨_, rfl⟩
  · next message _ =>
    split at h
    · cases h
      exact .inr (.inl ⟨_, rfl⟩)
    · unfold Changed.ofMessage at h
      split at h
      · cases h
        exact .inl ⟨_, rfl⟩
      · split at h <;> cases h
        exact .inl ⟨_, rfl⟩
    · cases h
      rw [reportedError]
      split
      · exact .inl ⟨_, rfl⟩
      · exact .inr (.inr (.inr ⟨_, _, rfl⟩))
    · cases h
      exact .inr (.inr (.inl ⟨_, rfl⟩))

end Etymon
