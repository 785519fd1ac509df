import Etymon.Arrangement
import Etymon.Cache.PathCache
import Etymon.Cache.Persistent
import Etymon.Engine
import Etymon.Plan
import Etymon.RuleOrder.Loading

/-!
# Evolving forms

An evolver takes forms through the sound changes. It plans the queries, asks the engine for those that
its caches miss, and reads the results back from the caches. The caches live as long as the content of
the rule file.

## Main definitions

* `Evolvable`: what can be evolved.
* `Evolved`: a form before and after sound change.
* `Evolver`: the rule order, the engine's state and the two caches.
* `Evolver.evolve`, `Evolver.trace`: the results for a list of inputs.
* `Evolver.flush`: saves the caches.
-/

namespace Etymon

structure Evolved where
  proto : String
  modern : String
  phonetic : String
  deriving DecidableEq, Repr

/-- The words that were sent to the engine for a form, each with what changed it; dependencies come
first. -/
abbrev Trace := List (String × List TraceLine)

inductive Evolvable where
  | text (s : String)
  | morpheme (m : Morpheme)
  | form (f : Form)
  deriving DecidableEq, Repr

/-- Every input as an arranged form. -/
def Evolvable.arranged (order : RuleOrder) : Evolvable → Form
  | text s => .leaf ⟨s, none⟩
  | morpheme m => .leaf m
  | form f => f.arrange order

/-! ## Cached values in JSON -/

namespace Evolved

def toJson (e : Evolved) : Json :=
  .object [("proto", .string e.proto), ("modern", .string e.modern),
    ("phonetic", .string e.phonetic)]

def ofJson? (value : Json) : Option Evolved := do
  if !value.hasArity 3 then none
  else
    return ⟨← value.required? Json.asString? 0 "proto", ← value.required? Json.asString? 1 "modern",
      ← value.required? Json.asString? 2 "phonetic"⟩

def codec : Codec Evolved := ⟨toJson, ofJson?⟩

end Evolved

namespace TraceLine

def toJson (l : TraceLine) : Json :=
  .object [("rule", .string l.rule), ("word", .string l.word), ("before", .string l.before),
    ("after", .string l.after)]

def ofJson? (value : Json) : Option TraceLine := do
  if !value.hasArity 4 then none
  else
    return ⟨← value.required? Json.asString? 0 "rule", ← value.required? Json.asString? 1 "word",
      ← value.required? Json.asString? 2 "before", ← value.required? Json.asString? 3 "after"⟩

def codec : Codec (List TraceLine) where
  encode lines := .array (lines.map toJson)
  decode? value := do (← value.asArray?).mapM ofJson?

end TraceLine

def Query.codec : Codec Query := ⟨toJson, ofJson?⟩

/-! ## Evolvers -/

/-- `rulesHash` is the checksum of the rule file at the last call. -/
structure Evolver (σ : Type) where
  rulesPath : Path
  rules : PathCache RuleOrder
  rulesHash : Option String
  engine : σ
  evolved : PersistentCache Query Evolved
  traces : PersistentCache Query (List TraceLine)
  syllables : Bool

namespace Evolver

variable {σ : Type}

def settings (syllables : Bool) : String :=
  "syllables=" ++ toString syllables

/-- Opens the caches in a directory. -/
def opened (files : FileStore) (rulesPath cacheDir : Path) (engine : σ) (syllables : Bool) :
    Evolver σ where
  rulesPath
  rules := none
  rulesHash := none
  engine
  evolved := .load Query.codec Evolved.codec files (cacheDir.child "evolve-cache.cache") [rulesPath]
    (settings syllables)
  traces := .load Query.codec TraceLine.codec files (cacheDir.child "trace-cache.cache") [rulesPath]
    (settings syllables)
  syllables

/-- The order of rules, read again when the rule file has changed. -/
def order (files : FileStore) : Action (Evolver σ) RuleOrder := do
  let v ← get
  let (order, rules) ←
    v.rules.get (fun _ => files) [v.rulesPath] (Action.ofExcept (RuleOrder.load files v.rulesPath))
  modify fun v => { v with rules }
  return order

/-! ## Keeping up with the rule file -/

def onEvolved {α : Type} (f : PersistentCache Query Evolved →
    Except Error α × PersistentCache Query Evolved) : Action (Evolver σ) α :=
  .part Evolver.evolved (fun evolved v => { v with evolved }) (.ofFunction f)

def onTraces {α : Type} (f : PersistentCache Query (List TraceLine) →
    Except Error α × PersistentCache Query (List TraceLine)) : Action (Evolver σ) α :=
  .part Evolver.traces (fun traces v => { v with traces }) (.ofFunction f)

/-- Validates the caches at the first call; resets the engine and drops the caches at later ones if the
rule file has changed. -/
def refresh (engine : Engine σ) (files : FileStore) : Action (Evolver σ) RuleOrder := do
  let v ← get
  let hash ← Action.ofExcept (files.checksum v.rulesPath)
  match v.rulesHash with
  | none =>
    let _ ← onEvolved (·.revalidate files)
    let _ ← onTraces (·.revalidate files)
  | some previous =>
    if previous ≠ hash then
      modify fun v => { v with engine := engine.reset v.engine }
      onEvolved (·.clear files)
      onTraces (·.clear files)
  modify fun v => { v with rulesHash := some hash }
  order files

def plan (engine : Engine σ) (files : FileStore) (inputs : List Evolvable) :
    Action (Evolver σ) Plan := do
  let order ← refresh engine files
  Action.ofExcept (Plan.ofForms order (inputs.map (·.arranged order)))

/-! ## Running batches -/

/-- Whether a query has yet to be answered. -/
def isPending (v : Evolver σ) (trace : Bool) (q : Query) : Bool :=
  !v.evolved.contains q || (trace && !v.traces.contains q)

/-- The text of a query, assembled from what is evolved so far. -/
def wordOf (v : Evolver σ) (q : Query) : Except Error String :=
  assemble (fun dependency => (v.evolved.get? dependency).map Evolved.phonetic) v.syllables q

/-- The modern and phonetic form that a response gives for a word of its request. -/
def answerFor? (r : Request) (changed : Changed) (word : String) : Option (String × String) :=
  (r.words.zip (changed.words.zip changed.phonetic)).lookup word

/-- Stores the answer for a query. -/
def store (r : Request) (changed : Changed) (trace : Bool) (v : Evolver σ)
    (pending : Query × String) : Evolver σ :=
  let (q, word) := pending
  match answerFor? r changed word with
  | none => v
  | some (modern, phonetic) =>
    let v := { v with evolved := v.evolved.insert q ⟨word, modern, phonetic⟩ }
    if trace then
      { v with traces := v.traces.insert q (changed.trace.filter fun line => line.word = word) }
    else v

/-- Asks the engine for the queries of a batch that are not answered yet. Queries with the same text
share one word of the request. -/
def runBatch (engine : Engine σ) (files : FileStore) (trace : Bool) (b : Batch) :
    Action (Evolver σ) Unit := do
  let v ← get
  match b.queries.filter (v.isPending trace) with
  | [] => return ()
  | pending =>
    let words ← Action.ofExcept (pending.mapM v.wordOf)
    let r := Request.make (distinct words) b.start b.stop trace
    let changed ← Action.part Evolver.engine (fun engine v => { v with engine })
      (.ofFunction (engine.evolve files r))
    modify fun v => (pending.zip words).foldl (store r changed trace) v

/-- Runs the batches of a plan, layer by layer. -/
def run (engine : Engine σ) (files : FileStore) (trace : Bool) (p : Plan) :
    Action (Evolver σ) Unit :=
  (p.layers.flatMap Layer.batches).forM (runBatch engine files trace)

/-! ## Results -/

def resultOf (v : Evolver σ) (root : Query) : Except Error Evolved :=
  match v.evolved.get? root with
  | some found => .ok found
  | none => .error (.cache .result)

/-- What the caches hold on a query and everything below it: head, tail, then the query itself. -/
def traceOf (v : Evolver σ) (q : Query) : Trace :=
  let below := match q with
    | .leaf .. => []
    | .node _ head tail _ _ => v.traceOf head ++ v.traceOf tail
  match v.traces.get? q, v.evolved.get? q with
  | some lines, some found => below ++ [(found.proto, lines)]
  | _, _ => below

/-- The evolved form of each input. -/
def evolve (engine : Engine σ) (files : FileStore) (inputs : List Evolvable) :
    Action (Evolver σ) (List Evolved) := do
  let p ← plan engine files inputs
  run engine files false p
  let v ← get
  Action.ofExcept (p.roots.mapM v.resultOf)

/-- The evolved form of each input, with what changed it on the way. -/
def trace (engine : Engine σ) (files : FileStore) (inputs : List Evolvable) :
    Action (Evolver σ) (List (Evolved × Trace)) := do
  let p ← plan engine files inputs
  run engine files true p
  let v ← get
  let results ← Action.ofExcept (p.roots.mapM v.resultOf)
  return (results.zip p.roots).map fun (found, root) => (found, v.traceOf root)

/-! ## Saving -/

/-- Saves both caches; the second only if the first could be saved. -/
def flush (files : FileStore) (v : Evolver σ) : Except Error Unit × FileStore × Evolver σ :=
  match v.evolved.save Query.codec Evolved.codec files with
  | (.error e, files, evolved) => (.error e, files, { v with evolved })
  | (.ok (), files, evolved) =>
    match v.traces.save Query.codec TraceLine.codec files with
    | (outcome, files, traces) => (outcome, files, { v with evolved, traces })

/-- Saves what can be saved when the evolver is no longer needed. -/
def close (files : FileStore) (v : Evolver σ) : FileStore :=
  v.traces.close Query.codec TraceLine.codec (v.evolved.close Query.codec Evolved.codec files)

end Evolver

end Etymon
