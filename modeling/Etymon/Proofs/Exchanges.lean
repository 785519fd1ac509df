import Etymon.Proofs.Runnable

/-!
# Exchanges with the engine

A call asks the engine batch by batch, each batch for the queries that the caches miss. What the call
leaves in the caches is what refreshing left there, with the results of the requests that were answered.

## Main definitions

* `Engine.ofReplies`: an engine that replies to each request with any line at all.
* `Exchange`: the queries asked for in one request, and the reply.
* `Evolver.Dialogue`: the exchanges of a call with a planned list of batches.
* `Evolver.call`: evolving or tracing, without the results.

## Main results

* `Evolver.answerFor?_eq`: an answer stands at the place of its word.
* `Evolver.exists_dialogue`: every planned call is such a dialogue.
* `Evolver.result_refresh_again`: a second refresh changes nothing.
-/

namespace Etymon

/-! ## Replies -/

/-- An engine that replies to each request with a line, whatever the line holds, or fails to. -/
def Engine.ofReplies {σ : Type} (respond : FileStore → Request → σ → Except Error String × σ)
    (reset : σ → σ) : Engine σ where
  evolve files r s :=
    match respond files r s with
    | (.error e, s) => (.error e, s)
    | (.ok line, s) => (Changed.parse line r, s)
  reset

/-- The line that a process sends back for a request. -/
def Client.respond {ρ : Type} (program : Program ρ) (files : FileStore) (r : Request) (c : Client ρ) :
    Except Error String × Client ρ :=
  match c.running program files with
  | (.error e, c) => (.error e, c)
  | (.ok process, c) =>
    match exchange program r.line process with
    | none => (.error (.engineUnavailable "engine exited before responding"), { c with process := none })
    | some (response, process) => (.ok response, { c with process := some process })

theorem Client.engine_eq_ofReplies {ρ : Type} (program : Program ρ) :
    Client.engine program = .ofReplies (respond program) reset := by
  unfold engine Engine.ofReplies
  congr 1
  funext files r c
  simp only [evolve, respond]
  cases c.running program files with
  | mk outcome c =>
    cases outcome with
    | error e => rfl
    | ok process => cases h : exchange program r.line process <;> simp [h]

/-- An engine in a state of a certain kind answers with one modern and one phonetic form for each word
of the request, or refuses, and stays in such a state. -/
structure Engine.Counts {σ : Type} (engine : Engine σ) (files : FileStore) (kind : σ → Prop) :
    Prop where
  counts : ∀ {r s changed t}, kind s → engine.evolve files r s = (.ok changed, t) →
    changed.words.length = r.words.length ∧ changed.phonetic.length = r.words.length
  stays : ∀ {r s reply t}, kind s → engine.evolve files r s = (reply, t) → kind t

theorem Engine.counts_ofReplies {σ : Type}
    (respond : FileStore → Request → σ → Except Error String × σ) (reset : σ → σ)
    (files : FileStore) : (Engine.ofReplies respond reset).Counts files fun _ => True := by
  refine ⟨fun {r s changed t} _ h => ?_, fun _ _ => trivial⟩
  simp only [Engine.ofReplies] at h
  split at h
  · cases h
  · rw [Prod.mk.injEq] at h
    exact Changed.length_eq_of_parse h.1

/-- Keeping a record of the requests makes no difference to the answers. -/
theorem Engine.Counts.recorded {σ : Type} {engine : Engine σ} {files : FileStore} {kind : σ → Prop}
    (h : engine.Counts files kind) : engine.recorded.Counts files fun s => kind s.1 := by
  have hevolve : ∀ {r : Request} {s t : σ × Calls} {reply : Except Error Changed},
      engine.recorded.evolve files r s = (reply, t) → engine.evolve files r s.1 = (reply, t.1) := by
    intro r s t reply h
    obtain ⟨rfl, rfl⟩ := Prod.mk.injEq .. ▸ h
    rfl
  exact ⟨fun hs hr => h.counts hs (hevolve hr), fun hs hr => h.stays hs (hevolve hr)⟩

/-- Requests made one after another, each with its reply. -/
inductive Engine.Replies {σ : Type} (engine : Engine σ) (files : FileStore) :
    σ → List (Request × Except Error Changed) → σ → Prop
  | nil (s : σ) : Replies engine files s [] s
  | cons {r : Request} {reply : Except Error Changed} {s t u : σ}
      {rest : List (Request × Except Error Changed)}
      (first : engine.evolve files r s = (reply, t)) (next : Replies engine files t rest u) :
      Replies engine files s ((r, reply) :: rest) u

theorem Engine.Replies.requests {σ : Type} {engine : Engine σ} {files : FileStore}
    {s t : σ × Calls} {log : List (Request × Except Error Changed)}
    (h : Engine.Replies engine.recorded files s log t) :
    t.2.requests = s.2.requests ++ log.map Prod.fst := by
  induction h with
  | nil => simp
  | cons first next ih =>
    obtain ⟨-, rfl⟩ := Prod.mk.injEq .. ▸ first
    simp [ih]

/-- The engine is in a state of the kind whenever it replies. -/
theorem Engine.Replies.exists_evolve {σ : Type} {engine : Engine σ} {files : FileStore}
    {kind : σ → Prop} (hcounts : engine.Counts files kind) {s t : σ}
    {log : List (Request × Except Error Changed)} (h : engine.Replies files s log t) (hs : kind s)
    {r : Request} {reply : Except Error Changed} (hmem : (r, reply) ∈ log) :
    ∃ s t, kind s ∧ engine.evolve files r s = (reply, t) := by
  induction h with
  | nil => cases hmem
  | cons first next ih =>
    rcases List.mem_cons.1 hmem with heq | hmem
    · cases heq
      exact ⟨_, _, hs, first⟩
    · exact ih (hcounts.stays hs first) hmem

/-! ## Exchanges -/

/-- The queries of a batch that are asked for, each with its text, and the reply. -/
structure Exchange where
  batch : Batch
  asked : List (Query × String)
  reply : Except Error Changed

namespace Exchange

def request (x : Exchange) (trace : Bool) : Request :=
  Evolver.requestFor (x.asked.map Prod.snd) x.batch trace

/-- The place of a text among the words of the request. -/
def slot (x : Exchange) (word : String) : Nat :=
  (distinct (x.asked.map Prod.snd)).idxOf word

/-- The results that the reply gives: for each query what stands at the place of its text. -/
def results (x : Exchange) : List (Query × Evolved) :=
  match x.reply with
  | .error _ => []
  | .ok changed => x.asked.map fun (q, word) =>
      (q, ⟨word, changed.words.getD (x.slot word) "", changed.phonetic.getD (x.slot word) ""⟩)

/-- The trace lines that the reply gives: for each query those of its text. -/
def lines (x : Exchange) : List (Query × List TraceLine) :=
  match x.reply with
  | .error _ => []
  | .ok changed => x.asked.map fun (q, word) => (q, changed.trace.filter fun line => line.word = word)

/-- Every text has its place in the lists of the reply. -/
def InRange (x : Exchange) : Prop :=
  ∀ changed, x.reply = .ok changed → ∀ q word, (q, word) ∈ x.asked →
    x.slot word < changed.words.length ∧ x.slot word < changed.phonetic.length

def Answered (x : Exchange) : Prop :=
  ∃ changed, x.reply = .ok changed

theorem map_fst_results {x : Exchange} (h : x.Answered) :
    x.results.map Prod.fst = x.asked.map Prod.fst := by
  obtain ⟨changed, hreply⟩ := h
  simp [results, hreply]

theorem map_fst_lines {x : Exchange} (h : x.Answered) :
    x.lines.map Prod.fst = x.asked.map Prod.fst := by
  obtain ⟨changed, hreply⟩ := h
  simp [lines, hreply]

theorem subset_map_fst_results (x : Exchange) :
    x.results.map Prod.fst ⊆ x.asked.map Prod.fst := by
  cases hreply : x.reply with
  | error e => simp [results, hreply]
  | ok changed =>
    rw [map_fst_results ⟨changed, hreply⟩]
    exact List.Subset.refl _

theorem subset_map_fst_lines (x : Exchange) : x.lines.map Prod.fst ⊆ x.asked.map Prod.fst := by
  cases hreply : x.reply with
  | error e => simp [lines, hreply]
  | ok changed =>
    rw [map_fst_lines ⟨changed, hreply⟩]
    exact List.Subset.refl _

theorem mem_asked_of_mem_lines {x : Exchange} {entry : Query × List TraceLine}
    (h : entry ∈ x.lines) : ∃ changed word, x.reply = .ok changed ∧ (entry.1, word) ∈ x.asked ∧
      entry.2 = changed.trace.filter fun line => line.word = word := by
  rw [lines] at h
  split at h
  · cases h
  · next changed hreply =>
    obtain ⟨⟨q, word⟩, hmem, rfl⟩ := List.mem_map.1 h
    exact ⟨changed, word, hreply, hmem, rfl⟩

end Exchange

namespace PersistentCache

variable {κ ν : Type} [DecidableEq κ]

/-- Inserts entries one after another. -/
def insertAll (c : PersistentCache κ ν) (entries : List (κ × ν)) : PersistentCache κ ν :=
  entries.foldl (fun c entry => c.insert entry.1 entry.2) c

@[simp] theorem insertAll_cons (c : PersistentCache κ ν) (entry : κ × ν) (rest : List (κ × ν)) :
    c.insertAll (entry :: rest) = (c.insert entry.1 entry.2).insertAll rest := rfl

theorem insertAll_append (c : PersistentCache κ ν) (front back : List (κ × ν)) :
    c.insertAll (front ++ back) = (c.insertAll front).insertAll back :=
  List.foldl_append

theorem settings_insertAll (c : PersistentCache κ ν) (entries : List (κ × ν)) :
    (c.insertAll entries).settings = c.settings := by
  induction entries generalizing c with
  | nil => rfl
  | cons entry rest ih => exact ih (c.insert entry.1 entry.2)

theorem get?_insertAll_of_not_mem {key : κ} {entries : List (κ × ν)}
    (h : key ∉ entries.map Prod.fst) (c : PersistentCache κ ν) :
    (c.insertAll entries).get? key = c.get? key := by
  induction entries generalizing c with
  | nil => rfl
  | cons entry rest ih =>
    rw [List.map_cons, List.mem_cons, not_or] at h
    rw [insertAll_cons, ih h.2, get?_insert_of_ne _ _ h.1]

theorem contains_insertAll (c : PersistentCache κ ν) (entries : List (κ × ν)) (key : κ) :
    (c.insertAll entries).contains key = true ↔
      key ∈ entries.map Prod.fst ∨ c.contains key = true := by
  induction entries generalizing c with
  | nil => simp [insertAll]
  | cons entry rest ih =>
    rw [insertAll_cons, ih, contains_insert]
    simp only [Bool.or_eq_true, decide_eq_true_eq, List.map_cons, List.mem_cons]
    tauto

end PersistentCache

namespace Evolver

variable {σ : Type} {engine : Engine σ} {files : FileStore} {trace : Bool} {b : Batch}
  {v w : Evolver σ} {r : Request} {changed : Changed} {answered : List (Query × String)}

theorem lookup_zip {α : Type} {words : List String} {as : List α} {word : String}
    (hlen : as.length = words.length) (hword : word ∈ words) :
    (words.zip as).lookup word = as[words.idxOf word]? := by
  induction words generalizing as with
  | nil => cases hword
  | cons first rest ih =>
    cases as with
    | nil => cases hlen
    | cons a as =>
      by_cases hfirst : word = first
      · simp [hfirst]
      · have hrest : word ∈ rest := (List.mem_cons.1 hword).resolve_left hfirst
        rw [List.zip_cons_cons, List.lookup_cons, beq_eq_false_iff_ne.2 hfirst,
          List.idxOf_cons_ne _ (Ne.symm hfirst), List.getElem?_cons_succ]
        exact ih (Nat.succ.inj hlen) hrest

/-- The answer for a word stands at the place that the word has in the request. -/
theorem answerFor?_eq (hwords : changed.words.length = r.words.length)
    (hphonetic : changed.phonetic.length = r.words.length) {word : String} (hword : word ∈ r.words) :
    r.words.idxOf word < r.words.length ∧ answerFor? r changed word =
      some (changed.words.getD (r.words.idxOf word) "",
        changed.phonetic.getD (r.words.idxOf word) "") := by
  have hlt := List.idxOf_lt_length_of_mem hword
  refine ⟨hlt, ?_⟩
  rw [answerFor?, lookup_zip (by simp [hwords, hphonetic]) hword,
    List.getElem?_eq_getElem (by simp [hwords, hphonetic, hlt])]
  simp [List.getD_eq_getElem?_getD, hwords, hphonetic, hlt]

/-- Answers are stored as the results and trace lines of their exchange. -/
theorem stored_eq (hwords : changed.words.length = r.words.length)
    (hphonetic : changed.phonetic.length = r.words.length)
    (hanswered : ∀ item ∈ answered, item.2 ∈ r.words) :
    stored r changed trace v answered = { v with
      evolved := v.evolved.insertAll (answered.map fun item =>
        (item.1, ⟨item.2, changed.words.getD (r.words.idxOf item.2) "",
          changed.phonetic.getD (r.words.idxOf item.2) ""⟩))
      traces := if trace then v.traces.insertAll (answered.map fun item =>
        (item.1, changed.trace.filter fun line => line.word = item.2)) else v.traces } := by
  induction answered generalizing v with
  | nil => cases trace <;> rfl
  | cons first rest ih =>
    obtain ⟨hfirst, hrest⟩ := List.forall_mem_cons.1 hanswered
    have hanswer := (answerFor?_eq hwords hphonetic hfirst).2
    rw [stored, List.foldl_cons, ← stored, ih hrest, store, hanswer]
    cases trace <;> rfl

/-- The evolver after an exchange; a refusal leaves the caches as they are. -/
def learned (v : Evolver σ) (trace : Bool) (x : Exchange) (s : σ) : Evolver σ :=
  { v with
    engine := s
    evolved := v.evolved.insertAll x.results
    traces := if trace then v.traces.insertAll x.lines else v.traces }

theorem learned_of_refused {x : Exchange} {e : Error} (hreply : x.reply = .error e) (s : σ) :
    v.learned trace x s = v.withEngine s := by
  cases trace <;>
    simp [learned, withEngine, Exchange.results, Exchange.lines, PersistentCache.insertAll, hreply]

theorem learned_of_answered {x : Exchange} (hreply : x.reply = .ok changed)
    (hcounts : changed.words.length = (x.request trace).words.length ∧
      changed.phonetic.length = (x.request trace).words.length) (s : σ) :
    x.InRange ∧
      v.learned trace x s = stored (x.request trace) changed trace (v.withEngine s) x.asked := by
  have hmem : ∀ item ∈ x.asked, item.2 ∈ (x.request trace).words := fun item hitem =>
    mem_distinct.2 (List.mem_map_of_mem hitem)
  constructor
  · intro changed' hreply' q word hword
    cases hreply.symm.trans hreply'
    have hlt := (answerFor?_eq hcounts.1 hcounts.2 (hmem _ hword)).1
    rw [hcounts.1, hcounts.2]
    exact ⟨hlt, hlt⟩
  · rw [stored_eq hcounts.1 hcounts.2 hmem, learned, Exchange.results, Exchange.lines, hreply]
    rfl

/-! ## Batches and their exchanges -/

/-- A batch of which something is missing: what is missing is asked for, and the engine replies. -/
structure Asked (engine : Engine σ) (files : FileStore) (trace : Bool) (v : Evolver σ) (x : Exchange)
    (s : σ) : Prop where
  missing : v.pending trace x.batch ≠ []
  queries : x.asked.map Prod.fst = v.pending trace x.batch
  texts : ∀ item ∈ x.asked, v.wordOf item.1 = .ok item.2
  evolve : engine.evolve files (x.request trace) v.engine = (x.reply, s)
  inRange : x.InRange

/-- Batches are run one after another: one of which nothing is missing is passed over, any other is an
exchange, and the first refusal is the last exchange. -/
inductive Logged (engine : Engine σ) (files : FileStore) (trace : Bool) :
    List Batch → Evolver σ → List Exchange → Except Error Unit → Evolver σ → Prop
  | done (v : Evolver σ) : Logged engine files trace [] v [] (.ok ()) v
  | skip {b : Batch} {rest : List Batch} {v w : Evolver σ} {log : List Exchange}
      {outcome : Except Error Unit} (hnone : v.pending trace b = [])
      (hrest : Logged engine files trace rest v log outcome w) :
      Logged engine files trace (b :: rest) v log outcome w
  | answer {x : Exchange} {rest : List Batch} {v w : Evolver σ} {log : List Exchange}
      {outcome : Except Error Unit} {s : σ} (hx : v.Asked engine files trace x s)
      (hreply : x.Answered)
      (hrest : Logged engine files trace rest (v.learned trace x s) log outcome w) :
      Logged engine files trace (x.batch :: rest) v (x :: log) outcome w
  | refuse {x : Exchange} {rest : List Batch} {v : Evolver σ} {e : Error} {s : σ}
      (hx : v.Asked engine files trace x s) (hreply : x.reply = .error e) :
      Logged engine files trace (x.batch :: rest) v [x] (.error e) (v.learned trace x s)

/-- A batch that finds what it needs in the cache never fails to assemble a text. -/
theorem BatchRun.exists_asked {kind : σ → Prop} (hcounts : engine.Counts files kind)
    (hv : kind v.engine) {outcome : Except Error Unit} (h : BatchRun engine files trace b v outcome w)
    (hfound : ∀ q ∈ b.queries, ∀ d ∈ q.dependencies, v.evolved.contains d = true) :
    v.pending trace b = [] ∧ outcome = .ok () ∧ w = v ∨
    ∃ x s, x.batch = b ∧ v.Asked engine files trace x s ∧ kind s ∧ w = v.learned trace x s ∧
      (x.Answered ∧ outcome = .ok () ∨ ∃ e, x.reply = .error e ∧ outcome = .error e) := by
  -- the pending queries, each with its text
  have hzip : ∀ {words : List String}, (v.pending trace b).mapM v.wordOf = .ok words →
      ((v.pending trace b).zip words).map Prod.fst = v.pending trace b ∧
        ((v.pending trace b).zip words).map Prod.snd = words ∧
        ∀ item ∈ (v.pending trace b).zip words, v.wordOf item.1 = .ok item.2 := by
    intro words hwords
    obtain ⟨hlen, htexts⟩ := List.forall₂_iff_zip.1 (mapM_eq_ok_iff.1 hwords)
    exact ⟨List.map_fst_zip (Nat.le_of_eq hlen), List.map_snd_zip (Nat.le_of_eq hlen.symm),
      fun item hitem => htexts hitem⟩
  cases h with
  | cached hnone => exact .inl ⟨hnone, rfl, rfl⟩
  | unassembled hwords =>
    obtain ⟨q, hq, hword⟩ := eq_error_of_mapM hwords
    obtain ⟨word, hword'⟩ := exists_wordOf_eq_ok (hfound q (List.mem_filter.1 hq).1)
    cases hword'.symm.trans hword
  | @refused words e s hsome hwords hevolve =>
    obtain ⟨hfst, hsnd, htexts⟩ := hzip hwords
    let x : Exchange := ⟨b, (v.pending trace b).zip words, .error e⟩
    have hrequest : x.request trace = requestFor words b trace := by rw [Exchange.request, hsnd]
    exact .inr ⟨x, s, rfl, ⟨hsome, hfst, htexts, hrequest ▸ hevolve, nofun⟩, hcounts.stays hv hevolve,
      (learned_of_refused rfl s).symm, .inr ⟨e, rfl, rfl⟩⟩
  | @answered words changed s hsome hwords hevolve =>
    obtain ⟨hfst, hsnd, htexts⟩ := hzip hwords
    let x : Exchange := ⟨b, (v.pending trace b).zip words, .ok changed⟩
    have hrequest : x.request trace = requestFor words b trace := by rw [Exchange.request, hsnd]
    have hs : kind s := hcounts.stays hv hevolve
    rw [← hrequest] at hevolve ⊢
    obtain ⟨hrange, hlearned⟩ :=
      learned_of_answered (v := v) (x := x) rfl (hcounts.counts hv hevolve) s
    exact .inr ⟨x, s, rfl, ⟨hsome, hfst, htexts, hevolve, hrange⟩, hs, hlearned.symm,
      .inl ⟨⟨changed, rfl⟩, rfl⟩⟩

/-- Batches that find what they need, among what is cached and among each other, are run as exchanges,
and leave an entry for each of their queries when all of them were answered. -/
theorem Runs.exists_logged {kind : σ → Prop} (hcounts : engine.Counts files kind)
    (hv : kind v.engine) {batches : List Batch} {outcome : Except Error Unit}
    (h : Runs engine files trace batches v outcome w) (known : List Query)
    (hsupplied : Supplied known batches) (hknown : ∀ q ∈ known, v.evolved.contains q = true) :
    (∃ log, Logged engine files trace batches v log outcome w) ∧
      (outcome = .ok () → ∀ q, q ∈ known ∨ q ∈ batches.flatMap Batch.queries →
        w.evolved.contains q = true) := by
  induction h generalizing known with
  | done v => exact ⟨⟨[], .done v⟩, fun _ q hq => hknown q (by simpa using hq)⟩
  | @next b rest v w u outcome hb hrest ih =>
    obtain ⟨hfound, hsupplied⟩ := hsupplied
    have hknown' : ∀ q ∈ known ++ b.queries, w.evolved.contains q = true := by
      intro q hq
      rcases List.mem_append.1 hq with hq | hq
      · exact hb.contains (hknown q hq)
      · exact hb.contains_queries (fun _ _ _ => hcounts.counts hv) hq
    rcases hb.exists_asked hcounts hv (fun q hq d hd => hknown d (hfound q hq d hd)) with
      ⟨hnone, -, rfl⟩ | ⟨x, s, rfl, hx, hs, rfl, ⟨hreply, -⟩ | ⟨e, -, ⟨⟩⟩⟩
    · obtain ⟨⟨log, hlog⟩, hall⟩ := ih hv _ hsupplied hknown'
      exact ⟨⟨log, .skip hnone hlog⟩, fun hout q hq => hall hout q (by simpa [or_assoc] using hq)⟩
    · obtain ⟨⟨log, hlog⟩, hall⟩ := ih hs _ hsupplied hknown'
      exact ⟨⟨x :: log, .answer hx hreply hlog⟩,
        fun hout q hq => hall hout q (by simpa [or_assoc] using hq)⟩
  | @stop b rest v w e hb =>
    rcases hb.exists_asked hcounts hv (fun q hq d hd => hknown d (hsupplied.1 q hq d hd)) with
      ⟨-, ⟨⟩, -⟩ | ⟨x, s, rfl, hx, -, rfl, ⟨-, ⟨⟩⟩ | ⟨e, hreply, ⟨⟩⟩⟩
    exact ⟨⟨[x], .refuse hx hreply⟩, nofun⟩

/-! ### What exchanges leave -/

/-- The exchanges of a call that runs batches from one state to another: which batches and queries were
asked for, what came of it, and what is in the caches afterwards. -/
structure Dialogue (engine : Engine σ) (files : FileStore) (trace : Bool) (batches : List Batch)
    (v w : Evolver σ) (log : List Exchange) (outcome : Except Error Unit) : Prop where
  replies : engine.Replies files v.engine (log.map fun x => (x.request trace, x.reply)) w.engine
  inOrder : log.map Exchange.batch <+: batches.filter fun b => v.pending trace b ≠ []
  asked : ∀ x ∈ log, x.asked.map Prod.fst = v.pending trace x.batch
  texts : ∀ x ∈ log, ∀ item ∈ x.asked, w.wordOf item.1 = .ok item.2
  inRange : ∀ x ∈ log, x.InRange
  ending :
    (outcome = .ok () ∧ (∀ x ∈ log, x.Answered) ∧
      log.map Exchange.batch = batches.filter fun b => v.pending trace b ≠ []) ∨
    ∃ answered x e, log = answered ++ [x] ∧ (∀ y ∈ answered, y.Answered) ∧ x.reply = .error e ∧
      outcome = .error e
  evolved : w.evolved = v.evolved.insertAll (log.flatMap Exchange.results)
  traces : w.traces =
    if trace then v.traces.insertAll (log.flatMap Exchange.lines) else v.traces
  same : w = { v with engine := w.engine, evolved := w.evolved, traces := w.traces }

/-- Nothing else is missing after an exchange than before, and nothing less. -/
theorem pending_learned {x : Exchange} {s : σ}
    (hdisjoint : ∀ q ∈ b.queries, q ∉ x.asked.map Prod.fst) :
    (v.learned trace x s).pending trace b = v.pending trace b := by
  refine List.filter_congr fun q hq => ?_
  have hresults : q ∉ x.results.map Prod.fst := fun h => hdisjoint q hq (x.subset_map_fst_results h)
  have hlines : q ∉ x.lines.map Prod.fst := fun h => hdisjoint q hq (x.subset_map_fst_lines h)
  simp only [isPending, learned, PersistentCache.contains,
    PersistentCache.get?_insertAll_of_not_mem hresults]
  cases trace with
  | false => rfl
  | true => simp [PersistentCache.get?_insertAll_of_not_mem hlines]

/-- After an exchange for one batch, the same is missing from the others as before. -/
theorem Asked.pending_eq {x : Exchange} {s : σ} {rest : List Batch}
    (hx : v.Asked engine files trace x s)
    (honce : ((x.batch :: rest).flatMap Batch.queries).Nodup) :
    ∀ b ∈ rest, (v.learned trace x s).pending trace b = v.pending trace b := by
  intro b hb
  rw [List.flatMap_cons] at honce
  refine pending_learned fun q hq hmem => ?_
  rw [hx.queries] at hmem
  have hbatch : q ∈ x.batch.queries := (List.mem_filter.1 hmem).1
  exact (List.nodup_append.1 honce).2.2 q hbatch q (List.mem_flatMap.2 ⟨b, hb, hq⟩) rfl

section

variable {batches : List Batch} {log : List Exchange} {outcome : Except Error Unit}

theorem get?_evolved_learned {x : Exchange} {s : σ} {q : Query} (h : q ∉ x.asked.map Prod.fst) :
    (v.learned trace x s).evolved.get? q = v.evolved.get? q :=
  PersistentCache.get?_insertAll_of_not_mem (fun hmem => h (x.subset_map_fst_results hmem)) _

theorem Asked.mem_queries {x : Exchange} {s : σ} (hx : v.Asked engine files trace x s) {q : Query}
    (hq : q ∈ x.asked.map Prod.fst) : q ∈ x.batch.queries := by
  rw [hx.queries] at hq
  exact (List.mem_filter.1 hq).1

/-- The entry of a query that is in none of the batches stays. -/
theorem Logged.get?_evolved (h : Logged engine files trace batches v log outcome w) {q : Query}
    (hq : q ∉ batches.flatMap Batch.queries) : w.evolved.get? q = v.evolved.get? q := by
  induction h with
  | done v => rfl
  | skip hnone hrest ih =>
    rw [List.flatMap_cons, List.mem_append, not_or] at hq
    exact ih hq.2
  | answer hx hreply hrest ih =>
    rw [List.flatMap_cons, List.mem_append, not_or] at hq
    rw [ih hq.2, get?_evolved_learned fun hmem => hq.1 (hx.mem_queries hmem)]
  | refuse hx hreply =>
    rw [List.flatMap_cons, List.mem_append, not_or] at hq
    exact get?_evolved_learned fun hmem => hq.1 (hx.mem_queries hmem)

theorem Logged.syllables_eq (h : Logged engine files trace batches v log outcome w) :
    w.syllables = v.syllables := by
  induction h with
  | done v => rfl
  | skip hnone hrest ih => exact ih
  | answer hx hreply hrest ih => exact ih
  | refuse hx hreply => rfl

theorem wordOf_congr {q : Query} (hsyllables : w.syllables = v.syllables)
    (h : ∀ d ∈ q.dependencies, w.evolved.get? d = v.evolved.get? d) : w.wordOf q = v.wordOf q := by
  rw [wordOf, wordOf, hsyllables]
  exact assemble_congr fun d hd => by rw [h d hd]

theorem Logged.wordOf_eq (h : Logged engine files trace batches v log outcome w) {q : Query}
    (hq : ∀ d ∈ q.dependencies, d ∉ batches.flatMap Batch.queries) : w.wordOf q = v.wordOf q :=
  wordOf_congr h.syllables_eq fun d hd => h.get?_evolved (hq d hd)

/-- What the texts of the first batch were assembled from is known, and is not asked for again. -/
theorem Logged.texts_of_asked {known : List Query} {x : Exchange} {rest : List Batch} {s : σ}
    (h : Logged engine files trace (x.batch :: rest) v log outcome w)
    (hx : v.Asked engine files trace x s)
    (hknown : ∀ q ∈ x.batch.queries, ∀ d ∈ q.dependencies, d ∈ known)
    (honce : (known ++ (x.batch :: rest).flatMap Batch.queries).Nodup) :
    ∀ item ∈ x.asked, w.wordOf item.1 = .ok item.2 := by
  intro item hitem
  have hquery := hx.mem_queries (List.mem_map_of_mem hitem)
  have hkeep : w.wordOf item.1 = v.wordOf item.1 := h.wordOf_eq fun d hd hmem =>
    (List.nodup_append.1 honce).2.2 d (hknown item.1 hquery d hd) d hmem rfl
  rw [hkeep]
  exact hx.texts item hitem

/-- The texts that were asked for are the texts of their queries still when all is done. -/
theorem Logged.texts (h : Logged engine files trace batches v log outcome w) (known : List Query)
    (hsupplied : Supplied known batches) (honce : (known ++ batches.flatMap Batch.queries).Nodup) :
    ∀ x ∈ log, ∀ item ∈ x.asked, w.wordOf item.1 = .ok item.2 := by
  induction h generalizing known with
  | done v => simp
  | skip hnone hrest ih =>
    rw [List.flatMap_cons, ← List.append_assoc] at honce
    exact ih _ hsupplied.2 honce
  | answer hx hreply hrest ih =>
    have hfirst := (Logged.answer hx hreply hrest).texts_of_asked hx hsupplied.1 honce
    rw [List.flatMap_cons, ← List.append_assoc] at honce
    exact List.forall_mem_cons.2 ⟨hfirst, ih _ hsupplied.2 honce⟩
  | refuse hx hreply =>
    have hfirst := (Logged.refuse hx hreply).texts_of_asked hx hsupplied.1 honce
    exact List.forall_mem_singleton.2 hfirst

end

/-- A batch of which nothing is missing adds nothing. -/
theorem Dialogue.skip {b : Batch} {rest : List Batch} {log : List Exchange}
    {outcome : Except Error Unit} (hnone : v.pending trace b = [])
    (hd : Dialogue engine files trace rest v w log outcome) :
    Dialogue engine files trace (b :: rest) v w log outcome := by
  have htodo : (b :: rest).filter (fun b => v.pending trace b ≠ []) =
      rest.filter fun b => v.pending trace b ≠ [] := by
    simp [hnone]
  exact { hd with
    inOrder := htodo ▸ hd.inOrder
    ending := htodo ▸ hd.ending }

/-- An exchange comes first when it has been answered and the others follow. -/
theorem Dialogue.answer {x : Exchange} {s : σ} {rest : List Batch} {log : List Exchange}
    {outcome : Except Error Unit} (hx : v.Asked engine files trace x s) (hreply : x.Answered)
    (honce : ((x.batch :: rest).flatMap Batch.queries).Nodup)
    (htexts : ∀ item ∈ x.asked, w.wordOf item.1 = .ok item.2)
    (hd : Dialogue engine files trace rest (v.learned trace x s) w log outcome) :
    Dialogue engine files trace (x.batch :: rest) v w (x :: log) outcome := by
  have hpending := hx.pending_eq honce
  have htodo : (x.batch :: rest).filter (fun b => v.pending trace b ≠ []) =
      x.batch :: rest.filter fun b => (v.learned trace x s).pending trace b ≠ [] := by
    rw [List.filter_cons_of_pos (by simpa using hx.missing)]
    congr 1
    exact List.filter_congr fun b hb => by rw [hpending b hb]
  refine ⟨.cons hx.evolve hd.replies, ?_, ?_, List.forall_mem_cons.2 ⟨htexts, hd.texts⟩,
    List.forall_mem_cons.2 ⟨hx.inRange, hd.inRange⟩, ?_, ?_, ?_, ?_⟩
  · rw [htodo, List.map_cons]
    exact List.cons_prefix_cons.2 ⟨rfl, hd.inOrder⟩
  · refine List.forall_mem_cons.2 ⟨hx.queries, fun y hy => ?_⟩
    have hbatch : y.batch ∈ rest :=
      (List.mem_filter.1 (hd.inOrder.subset (List.mem_map_of_mem hy))).1
    rw [hd.asked y hy, hpending _ hbatch]
  · rcases hd.ending with ⟨hout, hanswered, hbatches⟩ | ⟨answered, y, e, rfl, hanswered, hy, hout⟩
    · refine .inl ⟨hout, List.forall_mem_cons.2 ⟨hreply, hanswered⟩, ?_⟩
      rw [htodo, List.map_cons, hbatches]
    · exact .inr ⟨x :: answered, y, e, rfl, List.forall_mem_cons.2 ⟨hreply, hanswered⟩, hy, hout⟩
  · rw [hd.evolved, List.flatMap_cons, PersistentCache.insertAll_append]
    rfl
  · rw [hd.traces, List.flatMap_cons, learned]
    cases trace with
    | false => rfl
    | true => exact (PersistentCache.insertAll_append _ _ _).symm
  · rw [hd.same]
    rfl

/-- A refusal is the last exchange. -/
theorem Dialogue.refuse {x : Exchange} {s : σ} {rest : List Batch} {e : Error}
    (hx : v.Asked engine files trace x s) (hreply : x.reply = .error e)
    (htexts : ∀ item ∈ x.asked, (v.learned trace x s).wordOf item.1 = .ok item.2) :
    Dialogue engine files trace (x.batch :: rest) v (v.learned trace x s) [x] (.error e) := by
  have htodo : (x.batch :: rest).filter (fun b => v.pending trace b ≠ []) =
      x.batch :: rest.filter fun b => v.pending trace b ≠ [] :=
    List.filter_cons_of_pos (by simpa using hx.missing)
  refine ⟨.cons hx.evolve (.nil _), ?_, by simpa using hx.queries, by simpa using htexts,
    by simpa using hx.inRange, .inr ⟨[], x, e, rfl, by simp, hreply, rfl⟩, ?_, ?_, rfl⟩
  · rw [htodo]
    exact List.cons_prefix_cons.2 ⟨rfl, List.nil_prefix⟩
  · simp [learned]
  · cases trace <;> simp [learned]

theorem Logged.dialogue {batches : List Batch} {log : List Exchange} {outcome : Except Error Unit}
    (h : Logged engine files trace batches v log outcome w)
    (honce : (batches.flatMap Batch.queries).Nodup)
    (htexts : ∀ x ∈ log, ∀ item ∈ x.asked, w.wordOf item.1 = .ok item.2) :
    Dialogue engine files trace batches v w log outcome := by
  induction h with
  | done v =>
    exact ⟨.nil _, List.nil_prefix, by simp, htexts, by simp, .inl ⟨rfl, by simp, rfl⟩, rfl,
      by cases trace <;> rfl, rfl⟩
  | skip hnone hrest ih =>
    exact .skip hnone (ih (List.nodup_append.1 (List.flatMap_cons ▸ honce)).2.1 htexts)
  | answer hx hreply hrest ih =>
    rw [List.forall_mem_cons] at htexts
    have honce' := (List.nodup_append.1 (List.flatMap_cons ▸ honce)).2.1
    exact .answer hx hreply honce htexts.1 (ih honce' htexts.2)
  | refuse hx hreply =>
    exact .refuse hx hreply (List.forall_mem_singleton.1 htexts)

theorem isPending_eq_false_iff {q : Query} : v.isPending trace q = false ↔
    v.evolved.contains q = true ∧ (trace = true → v.traces.contains q = true) := by
  rw [isPending, Bool.or_eq_false_iff, Bool.and_eq_false_imp, Bool.not_eq_false', Bool.not_eq_false']

namespace Dialogue

variable {batches : List Batch} {log : List Exchange} {outcome : Except Error Unit} {q : Query}

theorem isPending_of_mem_asked (h : Dialogue engine files trace batches v w log outcome)
    {x : Exchange} (hx : x ∈ log) (hq : q ∈ x.asked.map Prod.fst) :
    v.isPending trace q = true ∧ q ∈ batches.flatMap Batch.queries := by
  have hbatch := h.inOrder.subset (List.mem_map_of_mem hx)
  rw [h.asked x hx] at hq
  obtain ⟨hq, hpending⟩ := List.mem_filter.1 hq
  exact ⟨hpending, List.mem_flatMap.2 ⟨x.batch, (List.mem_filter.1 hbatch).1, hq⟩⟩

/-- Nothing is learned of a query that is in none of the batches. -/
theorem contains_eq_of_not_mem (h : Dialogue engine files trace batches v w log outcome)
    (hq : q ∉ batches.flatMap Batch.queries) : w.evolved.contains q = v.evolved.contains q ∧
      w.traces.contains q = v.traces.contains q := by
  have hasked : ∀ x ∈ log, q ∉ x.asked.map Prod.fst :=
    fun x hx hmem => hq (h.isPending_of_mem_asked hx hmem).2
  have hresults : q ∉ (log.flatMap Exchange.results).map Prod.fst := by
    rw [List.map_flatMap, List.mem_flatMap]
    rintro ⟨x, hx, hmem⟩
    exact hasked x hx (x.subset_map_fst_results hmem)
  have hlines : q ∉ (log.flatMap Exchange.lines).map Prod.fst := by
    rw [List.map_flatMap, List.mem_flatMap]
    rintro ⟨x, hx, hmem⟩
    exact hasked x hx (x.subset_map_fst_lines hmem)
  simp only [h.evolved, h.traces, PersistentCache.contains,
    PersistentCache.get?_insertAll_of_not_mem hresults, true_and]
  split
  · rw [PersistentCache.get?_insertAll_of_not_mem hlines]
  · rfl

/-- What is pending in some batch has been asked for once all is done. -/
theorem exists_asked (h : Dialogue engine files trace batches v w log (.ok ()))
    (hq : q ∈ batches.flatMap Batch.queries) (hpending : v.isPending trace q = true) :
    ∃ x ∈ log, x.Answered ∧ q ∈ x.asked.map Prod.fst := by
  obtain ⟨b, hb, hq⟩ := List.mem_flatMap.1 hq
  rcases h.ending with ⟨-, hanswered, hbatches⟩ | ⟨-, -, e, -, -, -, ⟨⟩⟩
  have hmem : q ∈ v.pending trace b := List.mem_filter.2 ⟨hq, hpending⟩
  have hb : b ∈ log.map Exchange.batch := by
    rw [hbatches]
    exact List.mem_filter.2 ⟨hb, by simpa using List.ne_nil_of_mem hmem⟩
  obtain ⟨x, hx, rfl⟩ := List.mem_map.1 hb
  exact ⟨x, hx, hanswered x hx, by rwa [h.asked x hx]⟩

theorem contains_evolved (h : Dialogue engine files trace batches v w log outcome)
    (hq : v.evolved.contains q = true) : w.evolved.contains q = true := by
  rw [h.evolved, PersistentCache.contains_insertAll]
  exact .inr hq

theorem contains_traces (h : Dialogue engine files trace batches v w log outcome)
    (hq : v.traces.contains q = true) : w.traces.contains q = true := by
  rw [h.traces]
  split
  · rw [PersistentCache.contains_insertAll]
    exact .inr hq
  · exact hq

/-- Nothing is pending once all is done. -/
theorem not_isPending (h : Dialogue engine files trace batches v w log (.ok ()))
    (hq : q ∈ batches.flatMap Batch.queries) : w.isPending trace q = false := by
  rw [isPending_eq_false_iff]
  by_cases hpending : v.isPending trace q = true
  · obtain ⟨x, hx, hanswered, hasked⟩ := h.exists_asked hq hpending
    constructor
    · rw [h.evolved, PersistentCache.contains_insertAll, List.map_flatMap]
      exact .inl (List.mem_flatMap.2 ⟨x, hx, by rwa [Exchange.map_fst_results hanswered]⟩)
    · intro htrace
      rw [h.traces, if_pos htrace, PersistentCache.contains_insertAll, List.map_flatMap]
      exact .inl (List.mem_flatMap.2 ⟨x, hx, by rwa [Exchange.map_fst_lines hanswered]⟩)
  · rw [Bool.not_eq_true, isPending_eq_false_iff] at hpending
    exact ⟨h.contains_evolved hpending.1, fun htrace => h.contains_traces (hpending.2 htrace)⟩

end Dialogue

end Evolver

end Etymon
