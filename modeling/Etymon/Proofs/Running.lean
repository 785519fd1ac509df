import Etymon.Evolver
import Etymon.Proofs.Action

/-!
# Running batches

What running one batch of queries does to an evolver, and what running batch after batch does.

## Main definitions

* `Evolver.pending`: the queries of a batch that the caches miss.
* `Evolver.BatchRun`: the four ways in which a batch can be run.
* `Evolver.Runs`: batches that are run one after another, up to the first that fails.

## Main results

* `Evolver.batchRun`, `Evolver.runs_run`: every run of a batch or a plan is of this kind.
* `Evolver.get?_evolved_stored`, `Evolver.mem_evolved_stored`: what an answered batch leaves in the
  cache.
* `Evolver.Runs.get?_eq`: without tracing, what is cached is not evolved again.
-/

namespace Etymon

/-! ## Entries of caches -/

theorem mem_of_lookup_eq_some {α β : Type} [DecidableEq α] {items : List (α × β)} {a : α} {b : β}
    (h : items.lookup a = some b) : (a, b) ∈ items := by
  obtain ⟨before, after, rfl, -⟩ := List.lookup_eq_some_iff.1 h
  simp

namespace PersistentCache

variable {κ ν : Type} [DecidableEq κ]

theorem mem_of_get? {c : PersistentCache κ ν} {key : κ} {value : ν} (h : c.get? key = some value) :
    (key, value) ∈ c.entries :=
  mem_of_lookup_eq_some h

theorem mem_setEntry {key : κ} {value : ν} {entries : List (κ × ν)} {entry : κ × ν}
    (h : entry ∈ setEntry key value entries) : entry = (key, value) ∨ entry ∈ entries := by
  induction entries with
  | nil => simpa [setEntry] using h
  | cons first rest ih =>
    rw [setEntry] at h
    split at h
    · rcases List.mem_cons.1 h with h | h
      · exact .inl h
      · exact .inr (List.mem_cons_of_mem _ h)
    · rcases List.mem_cons.1 h with h | h
      · exact .inr (by simp [h])
      · exact (ih h).imp_right (List.mem_cons_of_mem _)

theorem contains_insert (c : PersistentCache κ ν) (key other : κ) (value : ν) :
    (c.insert key value).contains other = (decide (other = key) || c.contains other) := by
  by_cases h : other = key
  · simp [contains, h]
  · simp [contains, h, get?_insert_of_ne]

end PersistentCache

namespace Evolver

variable {σ : Type} {engine : Engine σ} {files : FileStore} {trace : Bool} {b : Batch}
  {v w : Evolver σ}

/-! ## One batch -/

/-- The queries of a batch that have yet to be answered. -/
def pending (v : Evolver σ) (trace : Bool) (b : Batch) : List Query :=
  b.queries.filter (v.isPending trace)

/-- The request of a batch for the texts of its pending queries. -/
def requestFor (words : List String) (b : Batch) (trace : Bool) : Request :=
  .make (distinct words) b.start b.stop trace

/-- The evolver with an engine in the state it reached. -/
def withEngine (v : Evolver σ) (s : σ) : Evolver σ :=
  { v with engine := s }

/-- The evolver with the answers to queries, each of which comes with its text. -/
def stored (r : Request) (changed : Changed) (trace : Bool) (v : Evolver σ)
    (answered : List (Query × String)) : Evolver σ :=
  answered.foldl (store r changed trace) v

/-- Nothing is pending; or a text cannot be assembled; or the engine fails; or it answers. -/
inductive BatchRun (engine : Engine σ) (files : FileStore) (trace : Bool) (b : Batch)
    (v : Evolver σ) : Except Error Unit → Evolver σ → Prop
  | cached (hnone : v.pending trace b = []) : BatchRun engine files trace b v (.ok ()) v
  | unassembled {e : Error} (hwords : (v.pending trace b).mapM v.wordOf = .error e) :
      BatchRun engine files trace b v (.error e) v
  | refused {words : List String} {e : Error} {s : σ}
      (hsome : v.pending trace b ≠ [])
      (hwords : (v.pending trace b).mapM v.wordOf = .ok words)
      (hevolve : engine.evolve files (requestFor words b trace) v.engine = (.error e, s)) :
      BatchRun engine files trace b v (.error e) (v.withEngine s)
  | answered {words : List String} {changed : Changed} {s : σ}
      (hsome : v.pending trace b ≠ [])
      (hwords : (v.pending trace b).mapM v.wordOf = .ok words)
      (hevolve : engine.evolve files (requestFor words b trace) v.engine = (.ok changed, s)) :
      BatchRun engine files trace b v (.ok ())
        (stored (requestFor words b trace) changed trace (v.withEngine s)
          ((v.pending trace b).zip words))

theorem batchRun (engine : Engine σ) (files : FileStore) (trace : Bool) (b : Batch)
    (v : Evolver σ) :
    BatchRun engine files trace b v ((runBatch engine files trace b).result v).1
      ((runBatch engine files trace b).result v).2 := by
  rw [runBatch, Action.result_bind, Action.result_get]
  dsimp only
  split
  · next hnone => exact .cached hnone
  · next hsome =>
    rw [Action.result_bind, Action.result_ofExcept]
    cases hwords : (b.queries.filter (v.isPending trace)).mapM v.wordOf with
    | error e => exact .unassembled hwords
    | ok words =>
      dsimp only
      rw [Action.result_bind, Action.result_part, Action.result_ofFunction]
      cases hevolve : engine.evolve files (requestFor words b trace) v.engine with
      | mk outcome s =>
        have hevolve' := hevolve
        rw [requestFor] at hevolve'
        rw [hevolve']
        cases outcome with
        | error e => exact .refused hsome hwords hevolve
        | ok changed => exact .answered hsome hwords hevolve

/-! ### Answers -/

section

variable {r : Request} {changed : Changed} {answered : List (Query × String)}

theorem exists_answerFor?_eq_some (hwords : changed.words.length = r.words.length)
    (hphonetic : changed.phonetic.length = r.words.length) {word : String} (hword : word ∈ r.words) :
    ∃ answer, answerFor? r changed word = some answer := by
  rw [answerFor?, ← Option.isSome_iff_exists, List.lookup_isSome_iff]
  obtain ⟨i, hi, rfl⟩ := List.getElem_of_mem hword
  have hlen : i < (r.words.zip (changed.words.zip changed.phonetic)).length := by
    simp only [List.length_zip]
    omega
  refine ⟨_, List.getElem_mem hlen, ?_⟩
  simp

/-- The entries after a batch are the entries before it and those of its answered queries. -/
theorem mem_evolved_stored {entry : Query × Evolved}
    (h : entry ∈ (stored r changed trace v answered).evolved.entries) :
    entry ∈ v.evolved.entries ∨ ∃ q word modern phonetic, (q, word) ∈ answered ∧
      answerFor? r changed word = some (modern, phonetic) ∧ entry = (q, ⟨word, modern, phonetic⟩) := by
  induction answered generalizing v with
  | nil => exact .inl h
  | cons first rest ih =>
    obtain ⟨q, word⟩ := first
    rw [stored, List.foldl_cons, ← stored] at h
    rcases ih h with h | ⟨q', word', modern, phonetic, hmem, hanswer, heq⟩
    · rw [store] at h
      split at h
      · exact .inl h
      · next modern phonetic hanswer =>
        have hentry : entry ∈ (v.evolved.insert q ⟨word, modern, phonetic⟩).entries := by
          split at h <;> exact h
        rcases PersistentCache.mem_setEntry hentry with hentry | hentry
        · exact .inr ⟨q, word, modern, phonetic, by simp, hanswer, hentry⟩
        · exact .inl hentry
    · exact .inr ⟨q', word', modern, phonetic, by simp [hmem], hanswer, heq⟩

theorem contains_evolved_store {first : Query × String} {q : Query}
    (h : v.evolved.contains q = true) :
    (store r changed trace v first).evolved.contains q = true := by
  rw [store]
  split
  · exact h
  · split <;> simp [PersistentCache.contains_insert, h]

theorem contains_evolved_stored {q : Query} (h : v.evolved.contains q = true) :
    (stored r changed trace v answered).evolved.contains q = true := by
  induction answered generalizing v with
  | nil => exact h
  | cons first rest ih =>
    rw [stored, List.foldl_cons, ← stored]
    exact ih (contains_evolved_store h)

/-- The entry of a query that is not answered stays. -/
theorem get?_evolved_stored {q : Query} (h : ∀ first ∈ answered, q ≠ first.1) :
    (stored r changed trace v answered).evolved.get? q = v.evolved.get? q := by
  induction answered generalizing v with
  | nil => rfl
  | cons first rest ih =>
    rw [List.forall_mem_cons] at h
    rw [stored, List.foldl_cons, ← stored, ih h.2, store]
    split
    · rfl
    · split <;> exact PersistentCache.get?_insert_of_ne _ _ h.1

/-- A query whose text the engine answered has an entry afterwards. -/
theorem contains_evolved_stored_of_mem {q : Query} {word : String} (hmem : (q, word) ∈ answered)
    (hanswer : ∃ answer, answerFor? r changed word = some answer) :
    (stored r changed trace v answered).evolved.contains q = true := by
  induction answered generalizing v with
  | nil => cases hmem
  | cons first rest ih =>
    rw [stored, List.foldl_cons, ← stored]
    rcases List.mem_cons.1 hmem with rfl | hmem
    · refine contains_evolved_stored ?_
      obtain ⟨⟨modern, phonetic⟩, hanswer⟩ := hanswer
      rw [store, hanswer]
      dsimp only
      split <;> simp [PersistentCache.contains_insert]
    · exact ih hmem

end

/-- Without tracing, a query that is cached is not pending, and keeps its entry. -/
theorem BatchRun.get?_eq {outcome : Except Error Unit} (h : BatchRun engine files false b v outcome w)
    {q : Query} {e : Evolved} (hq : v.evolved.get? q = some e) : w.evolved.get? q = some e := by
  cases h with
  | cached => exact hq
  | unassembled => exact hq
  | refused => exact hq
  | @answered words changed s =>
    refine (get?_evolved_stored fun first hfirst heq => ?_).trans hq
    have hpending := (List.mem_filter.1 (List.of_mem_zip hfirst).1).2
    rw [← heq, isPending, PersistentCache.contains, hq] at hpending
    cases hpending

/-! ## Batch after batch -/

inductive Runs (engine : Engine σ) (files : FileStore) (trace : Bool) :
    List Batch → Evolver σ → Except Error Unit → Evolver σ → Prop
  | done (v : Evolver σ) : Runs engine files trace [] v (.ok ()) v
  | next {b : Batch} {rest : List Batch} {v w u : Evolver σ} {outcome : Except Error Unit}
      (hb : BatchRun engine files trace b v (.ok ()) w)
      (hrest : Runs engine files trace rest w outcome u) :
      Runs engine files trace (b :: rest) v outcome u
  | stop {b : Batch} {rest : List Batch} {v w : Evolver σ} {e : Error}
      (hb : BatchRun engine files trace b v (.error e) w) :
      Runs engine files trace (b :: rest) v (.error e) w

theorem Runs.get?_eq {batches : List Batch} {outcome : Except Error Unit}
    (h : Runs engine files false batches v outcome w) {q : Query} {e : Evolved}
    (hq : v.evolved.get? q = some e) : w.evolved.get? q = some e := by
  induction h with
  | done => exact hq
  | next hb _ ih => exact ih (hb.get?_eq hq)
  | stop hb => exact hb.get?_eq hq

theorem runs_forM (engine : Engine σ) (files : FileStore) (trace : Bool) (batches : List Batch)
    (v : Evolver σ) :
    Runs engine files trace batches v
      ((batches.forM (runBatch engine files trace)).result v).1
      ((batches.forM (runBatch engine files trace)).result v).2 := by
  induction batches generalizing v with
  | nil => exact .done v
  | cons b rest ih =>
    have hb := batchRun engine files trace b v
    rw [show (b :: rest).forM (runBatch engine files trace) =
      (runBatch engine files trace b >>= fun _ => rest.forM (runBatch engine files trace)) from rfl,
      Action.result_bind]
    cases hresult : (runBatch engine files trace b).result v with
    | mk outcome w =>
      rw [hresult] at hb
      cases outcome with
      | error e => exact .stop hb
      | ok _ => exact .next hb (ih w)

theorem runs_run (engine : Engine σ) (files : FileStore) (trace : Bool) (p : Plan)
    (v : Evolver σ) :
    Runs engine files trace (p.layers.flatMap Layer.batches) v
      ((run engine files trace p).result v).1 ((run engine files trace p).result v).2 :=
  runs_forM engine files trace _ v

end Evolver

end Etymon
