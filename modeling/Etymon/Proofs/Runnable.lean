import Etymon.Engine.Client
import Etymon.Proofs.Plan
import Etymon.Proofs.Running

/-!
# Plans can be run

A batch finds whatever its queries need in the cache, and a plan leaves an entry for each of its roots
there. So no lookup in the cache misses as long as the engine keeps to its dialogue.

## Main definitions

* `Plan.Runnable`: a plan holds the needed work in a runnable order.
* `Engine.Answers`: an engine answers every word of a request or fails.
* `Error.NoGap`: the errors other than a missed lookup.

## Main results

* `Plan.runnable_of_ofForms`: plans of forms are runnable.
* `plans_run_through`: moreover, no lookup in the cache misses.
-/

namespace Etymon

/-- A plan emits the needed queries, each once, in the layer of its number and the batch of its window;
layers increase, windows do not repeat, and a query lies above whatever it needs. -/
structure Plan.Runnable (p : Plan) : Prop where
  needed : ∀ q, q ∈ p.queries ↔ Needed p.roots q
  once : p.queries.Nodup
  placed : ∀ l ∈ p.layers, ∀ b ∈ l.batches, ∀ q ∈ b.queries, q.layer = l.index ∧ q.window = b.window
  ascending : (p.layers.map Layer.index).Pairwise (· < ·)
  windows : ∀ l ∈ p.layers, (l.batches.map Batch.window).Nodup
  above : ∀ q ∈ p.queries, ∀ d, q.Needs d → d ∈ p.queries ∧ d.layer < q.layer

theorem Plan.runnable_of_ofForms {order : RuleOrder} {forms : List Form} {p : Plan}
    (hp : ofForms order forms = .ok p) : p.Runnable := by
  have hroots := (ofForms_eq_ok_iff.1 hp).2
  refine ⟨fun q => mem_queries_iff_needed hp, nodup_queries hp, ?_, ?_, ?_, ?_⟩
  · intro l hl b hb q hq
    rw [hroots] at hl
    exact placed_of_mem_layers hl hb hq
  · rw [hroots]
    exact pairwise_index_layersOf
  · intro l hl
    rw [hroots] at hl
    obtain ⟨i, -, rfl⟩ := mem_layersOf.1 hl
    exact nodup_windows_batchesOf
  · intro q hq d hd
    rw [mem_queries_iff_needed hp] at hq ⊢
    exact ⟨hq.step hd, Query.layer_lt_of_mem_dependencies (Query.needs_iff.1 hd)⟩

theorem Plan.window_of_ofForms {order : RuleOrder} {forms : List Form} {p : Plan}
    (hp : ofForms order forms = .ok p) : ∀ b ∈ p.batches, ∀ q ∈ b.queries, q.window = b.window := by
  intro b hb q hq
  obtain ⟨l, hl, hb⟩ := List.mem_flatMap.1 hb
  exact ((runnable_of_ofForms hp).placed l hl b hb q hq).2

/-- An engine answers with one modern and one phonetic form for each word of the request, or fails; it
knows nothing of the caches. -/
structure Engine.Answers {σ : Type} (engine : Engine σ) : Prop where
  counts : ∀ {files r s changed t}, engine.evolve files r s = (.ok changed, t) →
    changed.words.length = r.words.length ∧ changed.phonetic.length = r.words.length
  outside : ∀ {files r s e t}, engine.evolve files r s = (.error e, t) → ∀ gap, e ≠ .cache gap

theorem Changed.ne_gap_of_parse {line : String} {r : Request} {e : Error}
    (h : Changed.parse line r = .error e) (gap : CacheGap) : e ≠ .cache gap := by
  rcases Changed.error_of_parse h with ⟨_, rfl⟩ | ⟨_, rfl⟩ | ⟨_, rfl⟩ | ⟨_, _, rfl⟩ <;> nofun

theorem Client.ne_gap_of_running {ρ : Type} {program : Program ρ} {files : FileStore}
    {c c' : Client ρ} {e : Error} (h : c.running program files = (.error e, c')) (gap : CacheGap) :
    e ≠ .cache gap := by
  obtain ⟨⟨reason, rfl⟩, -⟩ := unavailable_of_running h
  nofun

/-- An engine that runs as a process keeps to the dialogue, whatever the process writes. -/
theorem Client.answers {ρ : Type} (program : Program ρ) : (Client.engine program).Answers := by
  constructor
  · intro files r s changed t h
    change evolve program files r s = _ at h
    unfold evolve at h
    split at h
    · cases h
    · split at h
      · cases h
      · rw [Prod.mk.injEq] at h
        exact Changed.length_eq_of_parse h.1
  · intro files r s e t h gap
    change evolve program files r s = _ at h
    unfold evolve at h
    split at h
    · next e' c hrunning =>
      rw [Prod.mk.injEq, Except.error.injEq] at h
      exact h.1 ▸ ne_gap_of_running hrunning gap
    · split at h
      · rw [Prod.mk.injEq, Except.error.injEq] at h
        rw [← h.1]
        simp
      · rw [Prod.mk.injEq] at h
        exact Changed.ne_gap_of_parse h.1 gap

/-! ## Errors outside of the caches -/

/-- The errors other than a missed lookup. -/
def Error.NoGap (e : Error) : Prop :=
  ∀ gap, e ≠ .cache gap

theorem FileStore.noGap_of_checksum {files : FileStore} {p : Path} {e : Error}
    (h : files.checksum p = .error e) : e.NoGap := by
  intro gap hgap
  subst hgap
  rw [checksum] at h
  split at h <;> simp at h

namespace PersistentCache

variable {κ ν : Type} {files : FileStore} {c : PersistentCache κ ν} {e : Error}

theorem noGap_of_stampAll {paths : List Path} (h : (stampAll files paths c).1 = .error e) :
    e.NoGap := by
  induction paths generalizing c with
  | nil => simp [stampAll] at h
  | cons p rest ih =>
    rw [stampAll] at h
    cases hsum : files.checksum p with
    | error e' =>
      simp only [hsum, Except.error.injEq] at h
      exact h ▸ FileStore.noGap_of_checksum hsum
    | ok hash =>
      simp only [hsum] at h
      exact ih h

theorem noGap_of_evict (h : (c.evict files).1 = .error e) : e.NoGap := by
  rw [evict] at h
  split at h
  · next e' _ hstamp =>
    simp only [Except.error.injEq] at h
    exact h ▸ noGap_of_stampAll (congrArg Prod.fst hstamp)
  · simp at h

theorem noGap_of_renewals {paths : List Path} (h : c.renewals? files paths = .error e) :
    e.NoGap := by
  induction paths with
  | nil => simp [renewals?] at h
  | cons p rest ih =>
    rw [renewals?] at h
    split at h
    · exact ih h
    · cases hsum : files.checksum p with
      | error e' =>
        simp only [hsum, bind, Except.bind, Except.error.injEq] at h
        exact h ▸ FileStore.noGap_of_checksum hsum
      | ok hash =>
        simp only [hsum, bind, Except.bind] at h
        split at h
        · cases hrest : c.renewals? files rest with
          | error e' =>
            simp only [hrest, Except.error.injEq] at h
            exact ih (h ▸ hrest)
          | ok renewed => simp [hrest, pure, Except.pure] at h
        · simp [pure, Except.pure] at h

theorem noGap_of_revalidate (h : (c.revalidate files).1 = .error e) : e.NoGap := by
  rw [revalidate] at h
  split at h
  · split at h
    · next e' hrenew =>
      simp only [Except.error.injEq] at h
      exact h ▸ noGap_of_renewals hrenew
    · exact noGap_of_evict h
    · simp at h
    · simp at h
  · exact noGap_of_evict h

theorem noGap_of_clear (h : (c.clear files).1 = .error e) : e.NoGap :=
  noGap_of_stampAll h

end PersistentCache

theorem RuleOrder.noGap_of_load {files : FileStore} {p : Path} {e : Error}
    (h : load files p = .error e) : e.NoGap := by
  intro gap hgap
  subst hgap
  rw [load] at h
  cases hread : files.read p <;> simp [hread, Except.mapError, Except.map] at h

theorem Query.noGap_of_ofForm {order : RuleOrder} {f : Form} {e : Error}
    (h : Query.ofForm order f = .error e) : e.NoGap := by
  have hcheck : ∀ joiner side e', checkAffixation order joiner side = .error e' → e'.NoGap := by
    intro joiner side e' h' gap hgap
    subst hgap
    rw [checkAffixation] at h'
    split at h' <;> simp at h'
  induction f with
  | leaf m => simp [ofForm_leaf] at h
  | join head j tail ihh iht =>
    rw [ofForm] at h
    cases hhead : ofForm order head with
    | error e' =>
      simp only [hhead, bind, Except.bind, Except.error.injEq] at h
      exact ihh (h ▸ hhead)
    | ok q =>
      cases htail : ofForm order tail with
      | error e' =>
        simp only [hhead, htail, bind, Except.bind, Except.error.injEq] at h
        exact iht (h ▸ htail)
      | ok r =>
        cases hq : checkAffixation order j.era q with
        | error e' =>
          simp only [hhead, htail, hq, bind, Except.bind, Except.error.injEq] at h
          exact h ▸ hcheck _ _ _ hq
        | ok _ =>
          cases hr : checkAffixation order j.era r with
          | error e' =>
            simp only [hhead, htail, hq, hr, bind, Except.bind, Except.error.injEq] at h
            exact h ▸ hcheck _ _ _ hr
          | ok _ => simp [hhead, htail, hq, hr, bind, Except.bind, pure, Except.pure] at h

theorem Plan.noGap_of_ofForms {order : RuleOrder} {forms : List Form} {e : Error}
    (h : Plan.ofForms order forms = .error e) : e.NoGap := by
  rw [Plan.ofForms] at h
  cases hroots : forms.mapM (Query.ofForm order) with
  | error e' =>
    simp only [hroots, bind, Except.bind, Except.error.injEq] at h
    obtain ⟨f, -, hf⟩ := eq_error_of_mapM hroots
    exact h ▸ Query.noGap_of_ofForm hf
  | ok roots => simp [hroots, bind, Except.bind, pure, Except.pure] at h

namespace PathCache

variable {σ α : Type} {files : FileStore}

theorem noGap_of_unchanged {stamps : List (Path × String)} {e : Error}
    (h : unchanged files stamps = .error e) : e.NoGap := by
  induction stamps with
  | nil => simp [unchanged] at h
  | cons first rest ih =>
    obtain ⟨p, hash⟩ := first
    rw [unchanged] at h
    cases hsum : files.checksum p with
    | error e' =>
      simp only [hsum, bind, Except.bind, Except.error.injEq] at h
      exact h ▸ FileStore.noGap_of_checksum hsum
    | ok found =>
      simp only [hsum, bind, Except.bind] at h
      split at h
      · exact ih h
      · simp [pure, Except.pure] at h

theorem noGap_of_valid {applies : List (Path × String) → Bool} {cache : PathCache α} {e : Error}
    (h : cache.valid? files applies = .error e) : e.NoGap := by
  cases cache with
  | none => simp [valid?] at h
  | some memo =>
    rw [valid?] at h
    split at h
    · cases hsame : unchanged files memo.stamps with
      | error e' =>
        simp only [hsame, bind, Except.bind, Except.error.injEq] at h
        exact h ▸ noGap_of_unchanged hsame
      | ok same => cases same <;> simp [hsame, bind, Except.bind, pure, Except.pure] at h
    · simp [pure, Except.pure] at h

theorem noGap_of_stamp {paths : List Path} {e : Error} (h : stamp files paths = .error e) :
    e.NoGap := by
  obtain ⟨p, -, hp⟩ := eq_error_of_mapM h
  cases hsum : files.checksum p with
  | error e' =>
    simp only [hsum, bind, Except.bind, Except.error.injEq] at hp
    exact hp ▸ FileStore.noGap_of_checksum hsum
  | ok hash => simp [hsum, bind, Except.bind, pure, Except.pure] at hp

theorem failsWith_getWith {files : σ → FileStore} {applies : List (Path × String) → Bool}
    {compute : Action σ (α × List Path)} (hcompute : Action.FailsWith Error.NoGap compute)
    (cache : PathCache α) : Action.FailsWith Error.NoGap (cache.getWith files applies compute) := by
  rw [getWith]
  refine Action.failsWith_bind Action.failsWith_get fun s => ?_
  refine Action.failsWith_bind (Action.failsWith_ofExcept fun e => noGap_of_valid) ?_
  rintro (_ | value)
  · refine Action.failsWith_bind hcompute fun computed => ?_
    refine Action.failsWith_bind Action.failsWith_get fun s => ?_
    refine Action.failsWith_bind (Action.failsWith_ofExcept fun e => noGap_of_stamp) fun stamps => ?_
    exact Action.failsWith_pure _
  · exact Action.failsWith_pure _

end PathCache

namespace Evolver

variable {σ : Type} {engine : Engine σ} {files : FileStore} {trace : Bool}

theorem failsWith_order : Action.FailsWith Error.NoGap (order files : Action (Evolver σ) RuleOrder) := by
  rw [order]
  refine Action.failsWith_bind Action.failsWith_get fun v => ?_
  refine Action.failsWith_bind (PathCache.failsWith_getWith ?_ _) fun found => ?_
  · refine Action.failsWith_bind ?_ fun order => Action.failsWith_pure _
    exact Action.failsWith_ofExcept fun e => RuleOrder.noGap_of_load
  · exact Action.failsWith_bind (Action.failsWith_modify _) fun _ => Action.failsWith_pure _

theorem failsWith_ofFunction {τ α : Type} {f : τ → Except Error α × τ}
    (h : ∀ t e, (f t).1 = .error e → e.NoGap) : Action.FailsWith Error.NoGap (.ofFunction f) := by
  intro s e t hresult
  rw [Action.result_ofFunction] at hresult
  exact h s e (congrArg Prod.fst hresult)

theorem failsWith_refresh : Action.FailsWith Error.NoGap (refresh engine files) := by
  rw [refresh]
  refine Action.failsWith_bind Action.failsWith_get fun v => ?_
  refine Action.failsWith_bind (Action.failsWith_ofExcept fun e => FileStore.noGap_of_checksum)
    fun hash => ?_
  have hrest : Action.FailsWith Error.NoGap (do
      modify fun v : Evolver σ => { v with rulesHash := some hash }
      order files) :=
    Action.failsWith_bind (Action.failsWith_modify _) fun _ => failsWith_order
  cases v.rulesHash with
  | none =>
    refine Action.failsWith_bind (Action.failsWith_part (failsWith_ofFunction fun c e =>
      PersistentCache.noGap_of_revalidate)) fun _ => ?_
    exact Action.failsWith_bind (Action.failsWith_part (failsWith_ofFunction fun c e =>
      PersistentCache.noGap_of_revalidate)) fun _ => hrest
  | some previous =>
    dsimp only
    split
    · refine Action.failsWith_bind (Action.failsWith_modify _) fun _ => ?_
      refine Action.failsWith_bind (Action.failsWith_part (failsWith_ofFunction fun c e =>
        PersistentCache.noGap_of_clear)) fun _ => ?_
      exact Action.failsWith_bind (Action.failsWith_part (failsWith_ofFunction fun c e =>
        PersistentCache.noGap_of_clear)) fun _ => hrest
    · exact hrest

theorem failsWith_plan {inputs : List Evolvable} :
    Action.FailsWith Error.NoGap (plan engine files inputs) := by
  rw [plan]
  refine Action.failsWith_bind failsWith_refresh fun order => ?_
  exact Action.failsWith_ofExcept fun e => Plan.noGap_of_ofForms

/-! ## Batches that find what they need -/

variable {b : Batch} {batches : List Batch} {v w : Evolver σ} {outcome : Except Error Unit}

/-- The text of a query is there once what the query needs is evolved. -/
theorem exists_wordOf_eq_ok {q : Query} (h : ∀ d ∈ q.dependencies, v.evolved.contains d = true) :
    ∃ word, v.wordOf q = .ok word :=
  exists_assemble_eq_ok fun d hd => by
    have hd := h d hd
    rw [PersistentCache.contains] at hd
    rwa [Option.isSome_map]

theorem BatchRun.contains (h : BatchRun engine files trace b v (.ok ()) w) {q : Query}
    (hq : v.evolved.contains q = true) : w.evolved.contains q = true := by
  cases h with
  | cached hnone => exact hq
  | answered hsome hwords hevolve => exact contains_evolved_stored hq

/-- A batch that was run leaves an entry for each of its queries. -/
theorem BatchRun.contains_queries
    (hcounts : ∀ r changed s, engine.evolve files r v.engine = (.ok changed, s) →
      changed.words.length = r.words.length ∧ changed.phonetic.length = r.words.length)
    (h : BatchRun engine files trace b v (.ok ()) w) {q : Query} (hq : q ∈ b.queries) :
    w.evolved.contains q = true := by
  by_cases hpending : v.isPending trace q = true
  · have hmem : q ∈ v.pending trace b := List.mem_filter.2 ⟨hq, hpending⟩
    cases h with
    | cached hnone =>
      rw [hnone] at hmem
      cases hmem
    | answered hsome hwords hevolve =>
      obtain ⟨hcount, hcount'⟩ := hcounts _ _ _ hevolve
      obtain ⟨word, hzip, -⟩ := exists_mem_zip_of_forall₂ (mapM_eq_ok_iff.1 hwords) hmem
      have hword := mem_distinct.2 (List.of_mem_zip hzip).2
      exact contains_evolved_stored_of_mem hzip (exists_answerFor?_eq_some hcount hcount' hword)
  · rw [isPending, Bool.or_eq_true, not_or, Bool.not_eq_true', Bool.not_eq_false] at hpending
    exact h.contains hpending.1

theorem BatchRun.noGap (hengine : engine.Answers) {e : Error}
    (h : BatchRun engine files trace b v (.error e) w)
    (hfound : ∀ q ∈ b.queries, ∀ d ∈ q.dependencies, v.evolved.contains d = true) : e.NoGap := by
  cases h with
  | unassembled hwords =>
    obtain ⟨q, hq, hword⟩ := eq_error_of_mapM hwords
    obtain ⟨word, hword'⟩ := exists_wordOf_eq_ok (hfound q (List.mem_filter.1 hq).1)
    rw [hword'] at hword
    cases hword
  | refused hsome hwords hevolve => exact hengine.outside hevolve

/-- Batches that find what they need among what is cached and among each other fail only with the
engine, and leave an entry for each query. -/
theorem Runs.contains (hengine : engine.Answers) (h : Runs engine files trace batches v outcome w)
    (done : List Query) (hsupplied : Supplied done batches)
    (hdone : ∀ q ∈ done, v.evolved.contains q = true) :
    (∀ e, outcome = .error e → e.NoGap) ∧ (outcome = .ok () →
      ∀ q, q ∈ done ∨ q ∈ batches.flatMap Batch.queries → w.evolved.contains q = true) := by
  induction h generalizing done with
  | done v =>
    refine ⟨fun e he => (by cases he), fun _ q hq => ?_⟩
    simpa using hdone q (by simpa using hq)
  | @next b rest v w u outcome hb hrest ih =>
    obtain ⟨hfound, hsupplied⟩ := hsupplied
    have hdone' : ∀ q ∈ done ++ b.queries, w.evolved.contains q = true := by
      intro q hq
      rcases List.mem_append.1 hq with hq | hq
      · exact hb.contains (hdone q hq)
      · exact hb.contains_queries (fun _ _ _ => hengine.counts) hq
    obtain ⟨herror, hok⟩ := ih _ hsupplied hdone'
    refine ⟨herror, fun hout q hq => hok hout q ?_⟩
    simpa [or_assoc] using hq
  | @stop b rest v w e hb =>
    refine ⟨fun e' he => ?_, fun hout => by cases hout⟩
    rw [Except.error.injEq] at he
    subst he
    exact hb.noGap hengine fun q hq d hd => hdone d (hsupplied.1 q hq d hd)

/-- Running a plan fails only with the engine, and leaves an entry for each root. -/
theorem run_contains (files : FileStore) (trace : Bool) (hengine : engine.Answers)
    {order : RuleOrder} {forms : List Form} {p : Plan} (hp : Plan.ofForms order forms = .ok p)
    (v : Evolver σ) :
    (∀ e, ((run engine files trace p).result v).1 = .error e → e.NoGap) ∧
      (((run engine files trace p).result v).1 = .ok () → ∀ root ∈ p.roots,
        ((run engine files trace p).result v).2.evolved.contains root = true) := by
  have hruns := (runs_run engine files trace p v).contains hengine []
    (Plan.supplied_batches hp) (fun q hq => by cases hq)
  refine ⟨hruns.1, fun hout root hroot => hruns.2 hout root (.inr ?_)⟩
  exact (Plan.mem_queries_iff_needed hp).2 (.root hroot)

theorem exists_resultOf_eq_ok {root : Query} (h : v.evolved.contains root = true) :
    ∃ found, v.resultOf root = .ok found := by
  rw [PersistentCache.contains, Option.isSome_iff_exists] at h
  obtain ⟨found, hfound⟩ := h
  exact ⟨found, by rw [resultOf, hfound]⟩

/-! ## Calls -/

theorem exists_of_plan_eq_ok {inputs : List Evolvable} {p : Plan}
    (h : (plan engine files inputs).result v = (.ok p, w)) : ∃ order,
      (refresh engine files).result v = (.ok order, w) ∧
        Plan.ofForms order (inputs.map (·.arranged order)) = .ok p := by
  rw [plan, Action.result_bind] at h
  cases hrefresh : (refresh engine files).result v with
  | mk found u =>
    rw [hrefresh] at h
    cases found with
    | error e => simp at h
    | ok order =>
      simp only [Action.result_ofExcept, Prod.mk.injEq] at h
      exact ⟨order, by rw [h.2], h.1⟩

/-- A call fails outside of the caches when what follows the run of its plan does. -/
theorem failsWith_planned {α : Type} (hengine : engine.Answers) {inputs : List Evolvable}
    {finish : Plan → Action (Evolver σ) α}
    (hfinish : ∀ p v, (∀ root ∈ p.roots, v.evolved.contains root = true) →
      ∀ e u, (finish p).result v = (.error e, u) → e.NoGap) :
    Action.FailsWith Error.NoGap (do
      let p ← plan engine files inputs
      run engine files trace p
      finish p) := by
  refine Action.failsWith_bind_of failsWith_plan fun v p w hplan => ?_
  obtain ⟨order, -, hp⟩ := exists_of_plan_eq_ok hplan
  obtain ⟨herror, hok⟩ := run_contains files trace hengine hp w
  intro e u h
  cases hrun : (run engine files trace p).result w with
  | mk outcome t =>
    rw [hrun] at herror hok
    cases outcome with
    | error e' =>
      rw [Action.result_bind_error hrun, Prod.mk.injEq, Except.error.injEq] at h
      exact h.1 ▸ herror e' rfl
    | ok _ =>
      rw [Action.result_bind_ok hrun] at h
      exact hfinish p t (hok rfl) e u h

theorem exists_mapM_resultOf {roots : List Query}
    (h : ∀ root ∈ roots, v.evolved.contains root = true) :
    ∃ results, roots.mapM v.resultOf = .ok results :=
  exists_mapM_eq_ok_iff.2 fun root hroot => exists_resultOf_eq_ok (h root hroot)

theorem failsWith_evolve (hengine : engine.Answers) (inputs : List Evolvable) :
    Action.FailsWith Error.NoGap (evolve engine files inputs) := by
  refine failsWith_planned hengine fun p v hroots e u h => ?_
  obtain ⟨results, hresults⟩ := exists_mapM_resultOf hroots
  simp [Action.result_bind, hresults] at h

theorem failsWith_trace (hengine : engine.Answers) (inputs : List Evolvable) :
    Action.FailsWith Error.NoGap (Evolver.trace engine files inputs) := by
  refine failsWith_planned hengine fun p v hroots e u h => ?_
  obtain ⟨results, hresults⟩ := exists_mapM_resultOf hroots
  rw [Action.result_bind, Action.result_get] at h
  dsimp only at h
  rw [Action.result_bind, Action.result_ofExcept, hresults] at h
  cases h

end Evolver

/-- A plan holds exactly the needed work, in a runnable order. So with an engine that answers, neither
an evolved text nor a result is ever missing in the cache, whatever was cached before. -/
theorem plans_run_through {σ : Type} (engine : Engine σ) :
    (∀ order forms p, Plan.ofForms order forms = .ok p →
      List.Forall₂ (fun f q => Query.ofForm order f = .ok q) forms p.roots ∧ p.Runnable) ∧
    (engine.Answers → ∀ files inputs v gap,
      (((Evolver.evolve engine files inputs).result v).1 ≠ .error (.cache gap)) ∧
        ((Evolver.trace engine files inputs).result v).1 ≠ .error (.cache gap)) := by
  constructor
  · intro order forms p hp
    exact ⟨(Plan.ofForms_eq_ok_iff.1 hp).1, Plan.runnable_of_ofForms hp⟩
  · intro hengine files inputs v gap
    constructor
    · intro h
      exact Evolver.failsWith_evolve hengine inputs v _ _ (Prod.ext h rfl) gap rfl
    · intro h
      exact Evolver.failsWith_trace hengine inputs v _ _ (Prod.ext h rfl) gap rfl

end Etymon
