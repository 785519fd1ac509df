import Etymon.Engine.Client
import Etymon.Proofs.Json
import Mathlib.Data.List.TakeWhile

/-!
# Conversations with an engine process

What a process has written and nobody has read stays in its pipe and is read with the next response.
As long as the process writes one line for each request that can be a response, and anything else
around it, nobody notices: every call decodes the line that was written for its own request, as if the
pipe were emptied after each call.

## Main definitions

* `Machine.Replies`: a machine that answers a request with one response, or exits without one.
* `Client.Turn`: a call with an empty pipe, told by what the process writes for it.
* `Client.Conversation`: turns and resets, one after another.
* `Client.run`: calls of a client, one after another.

## Main results

* `Client.turn_evolve`: a call of a client is such a turn, and leaves nothing but noise in the pipe.
* `Client.run_conversation`: a run is such a conversation, and forgets every earlier process.
-/

namespace Etymon

open Text

variable {ρ : Type}

/-! ## Replies -/

/-- Lines of which none can be a response. -/
def IsNoise (lines : List String) : Prop :=
  ∀ line ∈ lines, looksLikeObject line = false

theorem IsNoise.append {lines lines' : List String} (h : IsNoise lines) (h' : IsNoise lines') :
    IsNoise (lines ++ lines') := by
  intro line hline
  rcases List.mem_append.1 hline with hline | hline
  · exact h line hline
  · exact h' line hline

theorem firstResponse?_of_isNoise {lines : List String} (h : IsNoise lines) :
    firstResponse? lines = none := by
  have hall : (lines.dropWhile fun line => !looksLikeObject line) = [] :=
    List.dropWhile_eq_nil_iff.2 fun line hline => by simp [h line hline]
  rw [firstResponse?, hall]

theorem firstResponse?_append {before after : List String} {object : String}
    (hbefore : IsNoise before) (hobject : looksLikeObject object = true) :
    firstResponse? (before ++ object :: after) = some (trimmed object, after) := by
  have hdrop : ((before ++ object :: after).dropWhile fun line => !looksLikeObject line) =
      object :: after := by
    rw [List.dropWhile_append_of_pos fun line hline => by simp [hbefore line hline],
      List.dropWhile_cons_of_neg (by simp [hobject])]
  rw [firstResponse?, hdrop]

/-- What a process writes for one request, and its state afterwards: a response with noise around it,
or noise and an exit. -/
inductive IsReply : List String → Option ρ → Prop
  | response {before after : List String} {object : String} (state : Option ρ)
      (hbefore : IsNoise before) (hobject : looksLikeObject object = true) (hafter : IsNoise after) :
      IsReply (before ++ object :: after) state
  | exit {written : List String} (hwritten : IsNoise written) : IsReply written none

/-- Whatever the state and the request, the machine replies. -/
def Machine.Replies (machine : Machine ρ) : Prop :=
  ∀ state line, IsReply (machine.answer state line).1 (machine.answer state line).2

/-! ## Exchanges -/

section

variable {program : Program ρ} {line : String} {state : ρ} {unread : List String}

/-- What is left of earlier replies stands in front of the reply, and is skipped with the noise. -/
theorem exchange_of_response {before after : List String} {object : String} {next : Option ρ}
    (hunread : IsNoise unread) (hanswer : program.answer state line = (before ++ object :: after, next))
    (hbefore : IsNoise before) (hobject : looksLikeObject object = true) :
    exchange program line ⟨some state, unread⟩ = some (trimmed object, ⟨next, after⟩) := by
  have hfirst : firstResponse? ((unread ++ before) ++ object :: after) = some (trimmed object, after) :=
    firstResponse?_append (hunread.append hbefore) hobject
  rw [List.append_assoc] at hfirst
  simp [exchange, hanswer, hfirst]

theorem exchange_of_exit {written : List String} (hunread : IsNoise unread)
    (hanswer : program.answer state line = (written, none)) (hwritten : IsNoise written) :
    exchange program line ⟨some state, unread⟩ = none := by
  simp [exchange, hanswer, firstResponse?_of_isNoise (hunread.append hwritten)]

theorem exchange_of_gone (hunread : IsNoise unread) : exchange program line ⟨none, unread⟩ = none := by
  simp [exchange, firstResponse?_of_isNoise hunread]

end

namespace Client

variable {program : Program ρ} {files : FileStore} {r : Request} {c c' : Client ρ}

/-! ## Turns -/

/-- Nothing in the pipe can be a response. -/
def IsQuiet (c : Client ρ) : Prop :=
  ∀ process, c.process = some process → IsNoise process.unread

/-- The client, once its pipe is emptied. -/
def drained (c : Client ρ) : Client ρ :=
  { c with process := c.process.map fun process => { process with unread := [] } }

theorem isQuiet_of_idle (h : c.process = none) : c.IsQuiet := by
  intro process hprocess
  rw [h] at hprocess
  cases hprocess

theorem drained_of_idle (h : c.process = none) : c.drained = c := by
  cases c
  cases h
  rfl

/-- A call of a client with an empty pipe. If no engine is running, one is started. The call decodes the
line that the process writes for the request; where it writes none, the engine is unavailable and given
up. -/
inductive Turn (program : Program ρ) (files : FileStore) (r : Request) :
    Client ρ → Except Error Changed → Client ρ → Prop
  | unstarted {c d : Client ρ} {reason : String}
      (hrunning : c.running program files = (.error (.engineUnavailable reason), d))
      (hidle : d.process = none) :
      Turn program files r c (.error (.engineUnavailable reason)) d
  | answered {c d : Client ρ} {state : ρ} {before after : List String} {object : String}
      {next : Option ρ}
      (hrunning : c.running program files = (.ok ⟨some state, []⟩, d))
      (hanswer : program.answer state r.line = (before ++ object :: after, next))
      (hbefore : IsNoise before) (hobject : looksLikeObject object = true)
      (hafter : IsNoise after) :
      Turn program files r c (Changed.parse (trimmed object) r)
        { d with process := some ⟨next, []⟩ }
  | exited {c d : Client ρ} {state : ρ} {written : List String} (reason : String)
      (hrunning : c.running program files = (.ok ⟨some state, []⟩, d))
      (hanswer : program.answer state r.line = (written, none)) (hwritten : IsNoise written) :
      Turn program files r c (.error (.engineUnavailable reason)) { d with process := none }
  | gone {c d : Client ρ} (reason : String)
      (hrunning : c.running program files = (.ok ⟨none, []⟩, d)) :
      Turn program files r c (.error (.engineUnavailable reason)) { d with process := none }

/-- A drained client runs the same engine. -/
theorem running_drained {process : Process ρ} (h : c.running program files = (.ok process, c')) :
    c.drained.running program files = (.ok { process with unread := [] }, c'.drained) := by
  rcases process_of_running h with ⟨hsome, rfl⟩ | ⟨hnone, hsome, state, rfl⟩
  · simp [running, drained, hsome]
  · have hsame : c'.drained = c' := by
      cases c'
      cases hsome
      rfl
    rw [drained_of_idle hnone, hsame, h]

theorem IsQuiet.of_running {process : Process ρ} (hc : c.IsQuiet)
    (h : c.running program files = (.ok process, c')) : IsNoise process.unread := by
  rcases process_of_running h with ⟨hsome, -⟩ | ⟨-, -, state, rfl⟩
  · exact hc process hsome
  · exact List.forall_mem_nil _

theorem evolve_of_response {process next : Process ρ} {response : String}
    (hrunning : c.running program files = (.ok process, c'))
    (hexchange : exchange program r.line process = some (response, next)) :
    c.evolve program files r = (Changed.parse response r, { c' with process := some next }) := by
  simp only [evolve, hrunning, hexchange]

theorem evolve_of_exit {process : Process ρ}
    (hrunning : c.running program files = (.ok process, c'))
    (hexchange : exchange program r.line process = none) : c.evolve program files r =
      (.error (.engineUnavailable "engine exited before responding"), { c' with process := none }) := by
  simp only [evolve, hrunning, hexchange]

/-- A client with nothing but noise in its pipe takes a turn as if the pipe were empty, and leaves
nothing but noise in it. -/
theorem turn_evolve (hreplies : program.Replies) (hc : c.IsQuiet) :
    Turn program files r c.drained (c.evolve program files r).1 (c.evolve program files r).2.drained ∧
      (c.evolve program files r).2.IsQuiet := by
  rcases hrunning : c.running program files with ⟨outcome, c'⟩
  cases outcome with
  | error e =>
    obtain ⟨⟨reason, rfl⟩, hnone, hnone'⟩ := unavailable_of_running hrunning
    simp only [evolve, hrunning]
    rw [drained_of_idle hnone, drained_of_idle hnone']
    exact ⟨.unstarted hrunning hnone', isQuiet_of_idle hnone'⟩
  | ok process =>
    have hdrained := running_drained hrunning
    have hnoise := hc.of_running hrunning
    obtain ⟨state, unread⟩ := process
    cases state with
    | none =>
      rw [evolve_of_exit hrunning (exchange_of_gone hnoise)]
      exact ⟨.gone (d := c'.drained) _ hdrained, isQuiet_of_idle rfl⟩
    | some state =>
      have hreply := hreplies state r.line
      rcases hanswer : program.answer state r.line with ⟨written, next⟩
      rw [hanswer] at hreply
      cases hreply with
      | @response before after object _ hbefore hobject hafter =>
        rw [evolve_of_response hrunning (exchange_of_response hnoise hanswer hbefore hobject)]
        dsimp only
        refine ⟨.answered (d := c'.drained) hdrained hanswer hbefore hobject hafter,
          fun process hprocess => ?_⟩
        cases hprocess
        exact hafter
      | exit hwritten =>
        rw [evolve_of_exit hrunning (exchange_of_exit hnoise hanswer hwritten)]
        exact ⟨.exited (d := c'.drained) _ hdrained hanswer hwritten, isQuiet_of_idle rfl⟩

/-- A call that finds the engine unavailable leaves none running. -/
theorem idle_of_unavailable {reason : String}
    (h : (c.evolve program files r).1 = .error (.engineUnavailable reason)) :
    (c.evolve program files r).2.process = none := by
  rcases hrunning : c.running program files with ⟨outcome, c'⟩
  cases outcome with
  | error e =>
    simp only [evolve, hrunning]
    exact (unavailable_of_running hrunning).2.2
  | ok process =>
    cases hexchange : exchange program r.line process with
    | none => rw [evolve_of_exit hrunning hexchange]
    | some found =>
      rw [evolve_of_response hrunning hexchange] at h
      rcases Changed.error_of_parse h with ⟨_, h⟩ | ⟨_, h⟩ | ⟨_, h⟩ | ⟨_, _, h⟩ <;> cases h

/-! ## Runs -/

/-- A call of a client; a request comes with the files that an engine would find when it is started. -/
inductive Call where
  | evolve (files : FileStore) (r : Request)
  | reset

/-- The outcome of a call and the client afterwards; a reset has no outcome. -/
def take (program : Program ρ) (c : Client ρ) : Call → Option (Except Error Changed) × Client ρ
  | .evolve files r => (some (c.evolve program files r).1, (c.evolve program files r).2)
  | .reset => (none, c.reset)

/-- The outcomes of calls made one after another, and the client afterwards. -/
def run (program : Program ρ) : List Call → Client ρ → List (Option (Except Error Changed)) × Client ρ
  | [], c => ([], c)
  | call :: calls, c =>
    let (outcome, c) := c.take program call
    let (outcomes, c) := run program calls c
    (outcome :: outcomes, c)

/-- Turns and resets of a client with an empty pipe. A reset ends the process. -/
inductive Conversation (program : Program ρ) :
    Client ρ → List Call → List (Option (Except Error Changed)) → Client ρ → Prop
  | nil (c : Client ρ) : Conversation program c [] [] c
  | evolve {c d last : Client ρ} {files : FileStore} {r : Request} {calls : List Call}
      {outcome : Except Error Changed} {outcomes : List (Option (Except Error Changed))}
      (turn : Turn program files r c outcome d) (rest : Conversation program d calls outcomes last) :
      Conversation program c (.evolve files r :: calls) (some outcome :: outcomes) last
  | reset {c last : Client ρ} {calls : List Call} {outcomes : List (Option (Except Error Changed))}
      (rest : Conversation program { c with process := none } calls outcomes last) :
      Conversation program c (.reset :: calls) (none :: outcomes) last

theorem conversation_run (hreplies : program.Replies) (calls : List Call) (hc : c.IsQuiet) :
    Conversation program c.drained calls (run program calls c).1 (run program calls c).2.drained := by
  induction calls generalizing c with
  | nil => exact .nil _
  | cons call calls ih =>
    cases call with
    | evolve files r =>
      obtain ⟨hturn, hquiet⟩ : Turn program files r c.drained _ _ ∧ _ := turn_evolve hreplies hc
      exact .evolve hturn (ih hquiet)
    | reset => exact .reset (ih (c := c.reset) (isQuiet_of_idle rfl))

theorem run_append (calls later : List Call) (c : Client ρ) :
    run program (calls ++ later) c =
      ((run program calls c).1 ++ (run program later (run program calls c).2).1,
        (run program later (run program calls c).2).2) := by
  induction calls generalizing c with
  | nil => rfl
  | cons call calls ih => simp [run, ih]

/-- The outcomes after which no engine is running: that of a reset, and an unavailable engine. -/
def Ends : Option (Except Error Changed) → Prop
  | none => True
  | some outcome => ∃ reason, outcome = .error (.engineUnavailable reason)

theorem idle_of_ends {calls : List Call} {outcome : Option (Except Error Changed)}
    (hlast : (run program calls c).1.getLast? = some outcome) (hends : Ends outcome) :
    (run program calls c).2.process = none := by
  rcases List.eq_nil_or_concat calls with rfl | ⟨front, call, rfl⟩
  · cases hlast
  rw [List.concat_eq_append, run_append] at hlast ⊢
  simp only [run, List.getLast?_append, List.getLast?_singleton, Option.some_or,
    Option.some.injEq] at hlast ⊢
  subst hlast
  cases call with
  | evolve files r =>
    obtain ⟨reason, hreason⟩ := hends
    exact idle_of_unavailable hreason
  | reset => rfl

/-- The calls of a client are a conversation in which each of them decodes the line that was written
for its own request, if there is one, and leaves no engine running otherwise. After a reset or an
unavailable engine no process is left, and the calls from there on have the outcomes that they have for
a client that never had one: no line written before is told after. -/
theorem run_conversation (hreplies : program.Replies) (hc : c.process = none) (calls : List Call) :
    Conversation program c calls (run program calls c).1 (run program calls c).2.drained ∧
      ∀ earlier later, calls = earlier ++ later →
        ∀ outcome, (run program earlier c).1.getLast? = some outcome → Ends outcome →
          (run program earlier c).2.process = none ∧
          (run program calls c).1 = (run program earlier c).1 ++
            (run program later ⟨(run program earlier c).2.command, none⟩).1 := by
  constructor
  · have hconversation := conversation_run hreplies calls (isQuiet_of_idle hc)
    rwa [drained_of_idle hc] at hconversation
  · rintro earlier later rfl outcome hlast hends
    have hidle := idle_of_ends hlast hends
    have hsame : (run program earlier c).2 = ⟨(run program earlier c).2.command, none⟩ := by
      rw [← hidle]
    refine ⟨hidle, ?_⟩
    rw [run_append, ← hsame]

/-! ### An engine with remarks -/

/-- A response that one word was changed to the given one. -/
def changedTo (word : String) : Json :=
  .object [("type", .string "changed"), ("words", .array [.string word])]

/-- The request for one word, and the response to it. -/
def voicedRequest : Request :=
  .make ["ata"] none none false

def voicedResponse : String :=
  (changedTo "ada").write

theorem parse_changedTo (word : String) :
    Changed.parse (changedTo word).write voicedRequest = .ok ⟨[word], [word], []⟩ := by
  have hplain : (changedTo word).Plain := by
    refine .object _ fun m hm => ?_
    simp only [List.mem_cons, List.not_mem_nil, or_false] at hm
    rcases hm with rfl | rfl
    · exact .string _
    · exact .array _ fun item hitem => List.mem_singleton.1 hitem ▸ .string _
  have hread : Json.parse? (changedTo word).write = some (changedTo word) := by
    rw [Json.parse?_write hplain]
    rfl
  rw [Changed.parse, hread]
  rfl

/-- An engine that greets and remarks on its first answer, then answers what cannot be read, and leaves
at the third request. -/
def talkative : Program Nat where
  command _ := .ok ["engine"]
  launch _ _ := .ok 0
  answer
    | 0, _ => (["engine ready", voicedResponse, "that was easy"], some 1)
    | 1, _ => (["let me see", "\x7b"], some 2)
    | _, _ => (["goodbye"], none)

theorem isNoise_singleton {line : String} (h : looksLikeObject line = false) : IsNoise [line] :=
  fun _ hline => List.mem_singleton.1 hline ▸ h

theorem replies_talkative : talkative.Replies
  | 0, _ => @IsReply.response Nat ["engine ready"] ["that was easy"] voicedResponse (some 1)
      (isNoise_singleton (by decide)) (by decide) (isNoise_singleton (by decide))
  | 1, _ => @IsReply.response Nat ["let me see"] [] "\x7b" (some 2)
      (isNoise_singleton (by decide)) (by decide) nofun
  | _ + 2, _ => .exit (isNoise_singleton (by decide))

def voicedCall : Call :=
  .evolve (.empty [] 0) voicedRequest

/-- The client of an engine that has answered its first request. -/
def greeted : Client Nat :=
  ⟨some ["engine"], some ⟨some 1, ["that was easy"]⟩⟩

theorem take_greeted {c : Client Nat}
    (hrunning : c.running talkative (.empty [] 0) =
      (.ok ⟨some 0, []⟩, ⟨some ["engine"], some ⟨some 0, []⟩⟩)) :
    c.take talkative voicedCall = (some (.ok ⟨["ada"], ["ada"], []⟩), greeted) := by
  have hexchange := @exchange_of_response Nat talkative voicedRequest.line 0 [] ["engine ready"]
    ["that was easy"] voicedResponse (some 1) nofun rfl (isNoise_singleton (by decide)) (by decide)
  have htrimmed : trimmed voicedResponse = voicedResponse := by decide
  rw [voicedCall, take, evolve_of_response hrunning hexchange, htrimmed, voicedResponse,
    parse_changedTo]
  rfl

/-- The engine answers, is not understood, and leaves. -/
theorem run_talkative : run talkative [voicedCall, voicedCall, voicedCall] idle =
    ([some (.ok ⟨["ada"], ["ada"], []⟩), some (.error (.protocol .notJson)),
      some (.error (.engineUnavailable "engine exited before responding"))],
      ⟨some ["engine"], none⟩) := by
  have hfirst : idle.take talkative voicedCall = (some (.ok ⟨["ada"], ["ada"], []⟩), greeted) :=
    take_greeted rfl
  have hsecond : greeted.take talkative voicedCall =
      (some (.error (.protocol .notJson)), ⟨some ["engine"], some ⟨some 2, []⟩⟩) := by
    have hexchange := @exchange_of_response Nat talkative voicedRequest.line 1 ["that was easy"]
      ["let me see"] [] "\x7b" (some 2) (isNoise_singleton (by decide)) rfl
      (isNoise_singleton (by decide)) (by decide)
    rw [voicedCall, take, evolve_of_response rfl hexchange]
    rfl
  have hthird : take talkative ⟨some ["engine"], some ⟨some 2, []⟩⟩ voicedCall =
      (some (.error (.engineUnavailable "engine exited before responding")),
        ⟨some ["engine"], none⟩) := by
    have hexchange := @exchange_of_exit Nat talkative voicedRequest.line 2 [] ["goodbye"] nofun rfl
      (isNoise_singleton (by decide))
    rw [voicedCall, take, evolve_of_exit rfl hexchange]
  simp only [run, hfirst, hsecond, hthird]

/-- Once it has left, it is started again, and answers as if it had never run. -/
theorem run_conversation_talkative : ∃ last,
    Conversation talkative idle [voicedCall, voicedCall, voicedCall, voicedCall]
      [some (.ok ⟨["ada"], ["ada"], []⟩), some (.error (.protocol .notJson)),
        some (.error (.engineUnavailable "engine exited before responding")),
        some (.ok ⟨["ada"], ["ada"], []⟩)] last ∧
    (run talkative [voicedCall, voicedCall, voicedCall] idle).2.process = none := by
  obtain ⟨hconversation, hforgets⟩ := run_conversation replies_talkative (c := idle) rfl
    [voicedCall, voicedCall, voicedCall, voicedCall]
  obtain ⟨hidle, houtcomes⟩ := hforgets [voicedCall, voicedCall, voicedCall] [voicedCall] rfl
    (some (.error (.engineUnavailable "engine exited before responding"))) (by rw [run_talkative]; rfl)
    ⟨_, rfl⟩
  have hagain : (run talkative [voicedCall] ⟨some ["engine"], none⟩).1 =
      [some (.ok ⟨["ada"], ["ada"], []⟩)] := by
    simp only [run, take_greeted (c := ⟨some ["engine"], none⟩) rfl]
  have hstopped : (run talkative [voicedCall, voicedCall, voicedCall] idle).2.command =
      some ["engine"] := by
    rw [run_talkative]
  rw [hstopped, hagain, run_talkative] at houtcomes
  rw [houtcomes] at hconversation
  exact ⟨_, hconversation, hidle⟩

/-- What the engine writes before its response: a response of its own, but indented. -/
def indentedLine : String :=
  "  " ++ (changedTo "ata").write

/-- An engine that writes an indented response first. -/
def indented : Program Unit where
  command _ := .ok ["engine"]
  launch _ _ := .ok ()
  answer _ _ := ([indentedLine, voicedResponse], some ())

/-- A line need not begin with a brace to be taken for the response: blanks in front of it do not
count. -/
theorem indented_line_responds :
    indented.answer () voicedRequest.line = ([indentedLine] ++ voicedResponse :: [], some ()) ∧
    indentedLine.toList.head? ≠ some '\x7b' ∧ voicedResponse.toList.head? = some '\x7b' ∧
    Changed.parse voicedResponse voicedRequest = .ok ⟨["ada"], ["ada"], []⟩ ∧
    (idle.evolve indented (.empty [] 0) voicedRequest).1 = .ok ⟨["ata"], ["ata"], []⟩ := by
  have hexchange := @exchange_of_response Unit indented voicedRequest.line () [] []
    [voicedResponse] indentedLine (some ()) nofun rfl nofun (by decide)
  have hrunning : idle.running indented (.empty [] 0) =
      (.ok ⟨some (), []⟩, ⟨some ["engine"], some ⟨some (), []⟩⟩) := rfl
  have htrimmed : trimmed indentedLine = (changedTo "ata").write := by decide
  refine ⟨rfl, by decide, by decide, parse_changedTo "ada", ?_⟩
  rw [evolve_of_response hrunning hexchange, htrimmed, parse_changedTo]

end Client

end Etymon
