import Etymon.Proofs.Exchanges
import Etymon.Proofs.Refreshing

/-!
# Calls that fail

A call that fails keeps what was answered before: refreshing leaves the caches in a known state, every
answered request adds its results, and a failing one adds nothing. The next call takes it from there.

## Main definitions

* `Evolver.call`: evolving or tracing, without the results.

## Main results

* `Evolver.result_refresh_again`: a second refresh changes nothing.
* `Evolver.exists_dialogue`: what a planned call asks for, and what it leaves.
* `Evolver.failing_call_keeps_answers`: a failing call loses nothing.
-/

namespace Etymon

/-! ## Kept values -/

theorem PathCache.valid?_of_result_get {σ α : Type} {files : FileStore} {p : Path}
    {compute : Except Error α} {cache kept : PathCache α} {value : α} {s t : σ}
    (h : (cache.get (fun _ => files) [p] (Action.ofExcept compute)).result s =
      (.ok (value, kept), t)) :
    t = s ∧ kept.valid? files (stampsOf [p]) = .ok (some value) := by
  rw [get, getWith, Action.result_bind_get] at h
  obtain ⟨known, s', hknown, hrest⟩ := Action.result_bind_eq_ok_iff.1 h
  obtain ⟨hvalid, rfl⟩ := Action.result_ofExcept_eq_ok_iff.1 hknown
  cases known with
  | some found =>
    cases hrest
    exact ⟨rfl, hvalid⟩
  | none =>
    obtain ⟨computed, s'', hcompute, hstamp⟩ := Action.result_bind_eq_ok_iff.1 hrest
    obtain ⟨found, t', hfound, hpair⟩ := Action.result_bind_eq_ok_iff.1 hcompute
    obtain ⟨-, rfl⟩ := Action.result_ofExcept_eq_ok_iff.1 hfound
    cases hpair
    simp only [Action.result_bind_get] at hstamp
    obtain ⟨stamps, t', hstamps, hkept⟩ := Action.result_bind_eq_ok_iff.1 hstamp
    obtain ⟨hstamps, rfl⟩ := Action.result_ofExcept_eq_ok_iff.1 hstamps
    cases hkept
    refine ⟨rfl, ?_⟩
    cases hsum : files.checksum p with
    | error e => simp [stamp, hsum, bind, Except.bind] at hstamps
    | ok hash =>
      obtain rfl : [(p, hash)] = stamps := by
        simpa [stamp, hsum, bind, Except.bind, pure, Except.pure] using hstamps
      simp [valid?, stampsOf, Path.same, unchanged, hsum, bind, Except.bind, pure, Except.pure]

namespace Evolver

variable {σ : Type} {engine : Engine σ} {files : FileStore} {trace : Bool}
  {inputs : List Evolvable} {u v w : Evolver σ}

/-! ## Refreshing twice -/

/-- The order that was read is kept, and is valid as long as the files stay. -/
theorem valid?_of_result_order {found : RuleOrder}
    (h : (order files).result v = (.ok found, u)) :
    u = { v with rules := u.rules } ∧
      u.rules.valid? files (PathCache.stampsOf [v.rulesPath]) = .ok (some found) := by
  rw [order, Action.result_bind_get] at h
  obtain ⟨⟨found', kept⟩, t, hget, hkept⟩ := Action.result_bind_eq_ok_iff.1 h
  obtain ⟨rfl, hvalid⟩ := PathCache.valid?_of_result_get hget
  cases hkept
  exact ⟨rfl, hvalid⟩

theorem of_result_refresh {found : RuleOrder} (h : (refresh engine files).result v = (.ok found, u)) :
    ∃ hash, files.checksum u.rulesPath = .ok hash ∧ u.rulesHash = some hash ∧
      u.rules.valid? files (PathCache.stampsOf [u.rulesPath]) = .ok (some found) := by
  rw [refresh, Action.result_bind_get] at h
  obtain ⟨hash, v', hsum, hread⟩ := Action.result_bind_eq_ok_iff.1 h
  obtain ⟨hsum, rfl⟩ := Action.result_ofExcept_eq_ok_iff.1 hsum
  -- whatever comes first keeps the path; the checksum is noted and the order is read
  have hrest : ∀ {t : Evolver σ}, t.rulesPath = v'.rulesPath →
      (order files).result { t with rulesHash := some hash } = (.ok found, u) →
      ∃ hash, files.checksum u.rulesPath = .ok hash ∧ u.rulesHash = some hash ∧
        u.rules.valid? files (PathCache.stampsOf [u.rulesPath]) = .ok (some found) := by
    intro t ht h
    obtain ⟨hu, hvalid⟩ := valid?_of_result_order h
    have hpath : u.rulesPath = v'.rulesPath := by rw [hu]; exact ht
    refine ⟨hash, hpath ▸ hsum, by rw [hu], ?_⟩
    rw [hpath, ← ht]
    exact hvalid
  cases hprevious : v'.rulesHash with
  | none =>
    rw [hprevious] at hread
    obtain ⟨_, t, ht, hread⟩ := Action.result_bind_eq_ok_iff.1 hread
    obtain ⟨_, t', ht', hread⟩ := Action.result_bind_eq_ok_iff.1 hread
    have hpath := congrArg (fun r => r.2.rulesPath) ht
    exact hrest ((congrArg (fun r => r.2.rulesPath) ht').symm.trans hpath.symm) hread
  | some previous =>
    rw [hprevious] at hread
    dsimp only at hread
    split at hread
    · rw [Action.result_bind_modify] at hread
      obtain ⟨_, t, ht, hread⟩ := Action.result_bind_eq_ok_iff.1 hread
      obtain ⟨_, t', ht', hread⟩ := Action.result_bind_eq_ok_iff.1 hread
      have hpath := congrArg (fun r => r.2.rulesPath) ht
      exact hrest ((congrArg (fun r => r.2.rulesPath) ht').symm.trans hpath.symm) hread
    · exact hrest rfl hread

/-- Refreshing again changes nothing, whatever has come into the caches in the meantime. -/
theorem result_refresh_again {found : RuleOrder}
    (h : (refresh engine files).result v = (.ok found, u)) (hpath : w.rulesPath = u.rulesPath)
    (hhash : w.rulesHash = u.rulesHash) (hrules : w.rules = u.rules) :
    (refresh engine files).result w = (.ok found, w) := by
  obtain ⟨hash, hsum, hnoted, hvalid⟩ := of_result_refresh h
  rw [← hpath] at hsum hvalid
  rw [← hrules] at hvalid
  rw [result_refresh_unchanged hsum (hhash.trans hnoted), order, Action.result_bind, Action.result_get]
  dsimp only
  rw [Action.result_bind, PathCache.result_get_of_valid hvalid]
  rfl

/-! ## Refreshing asks nothing -/

theorem keeps_order {γ : Type} {part : Evolver σ → γ}
    (h : ∀ (v : Evolver σ) rules, part { v with rules } = part v) :
    Action.Keeps part (order files : Action (Evolver σ) RuleOrder) := by
  refine Action.keeps_get_bind fun v => ?_
  refine Action.keeps_bind ?_ fun found =>
    Action.keeps_bind (Action.keeps_modify fun v => h v _) fun _ => Action.keeps_pure _
  refine Action.keeps_get_bind fun v => Action.keeps_bind (Action.keeps_ofExcept _) fun known => ?_
  cases known with
  | some found => exact Action.keeps_pure _
  | none =>
    refine Action.keeps_bind ?_ fun computed => Action.keeps_get_bind fun v =>
      Action.keeps_bind (Action.keeps_ofExcept _) fun stamps => Action.keeps_pure _
    exact Action.keeps_bind (Action.keeps_ofExcept _) fun _ => Action.keeps_pure _

/-- Refreshing may reset the engine, but asks it nothing. -/
theorem keeps_requests_refresh (engine : Engine σ) (files : FileStore) :
    Action.Keeps (fun v : Evolver (σ × Calls) => v.engine.2.requests)
      (refresh engine.recorded files) := by
  have hrest : ∀ hash, Action.Keeps (fun v : Evolver (σ × Calls) => v.engine.2.requests) (do
      modify fun v : Evolver (σ × Calls) => { v with rulesHash := some hash }
      order files) := fun hash =>
    Action.keeps_bind (Action.keeps_modify fun _ => rfl) fun _ => keeps_order fun _ _ => rfl
  refine Action.keeps_get_bind fun v => Action.keeps_bind (Action.keeps_ofExcept _) fun hash => ?_
  cases v.rulesHash with
  | none =>
    refine Action.keeps_bind (fun _ => rfl) fun _ => ?_
    exact Action.keeps_bind (fun _ => rfl) fun _ => hrest hash
  | some previous =>
    dsimp only
    split
    · refine Action.keeps_bind (Action.keeps_modify fun _ => rfl) fun _ => ?_
      refine Action.keeps_bind (fun _ => rfl) fun _ => ?_
      exact Action.keeps_bind (fun _ => rfl) fun _ => hrest hash
    · exact hrest hash

/-! ## Calls -/

/-- Evolving or tracing, without the results. -/
def call (engine : Engine σ) (files : FileStore) (trace : Bool) (inputs : List Evolvable) :
    Action (Evolver σ) Unit := do
  if trace then
    let _ ← Evolver.trace engine files inputs
  else
    let _ ← evolve engine files inputs

/-- Leaving out the results makes no difference to the evolver. -/
theorem snd_result_call (engine : Engine σ) (files : FileStore) (inputs : List Evolvable)
    (v : Evolver σ) :
    ((call engine files false inputs).result v).2 = ((evolve engine files inputs).result v).2 ∧
      ((call engine files true inputs).result v).2 =
        ((Evolver.trace engine files inputs).result v).2 := by
  have hforget : ∀ {α : Type} (act : Action (Evolver σ) α),
      ((do let _ ← act : Action (Evolver σ) Unit).result v).2 = (act.result v).2 := by
    intro α act
    rw [Action.result_bind]
    cases act.result v with
    | mk outcome w => cases outcome <;> rfl
  exact ⟨hforget _, hforget _⟩

/-- What a call leaves is there once its batches were run; its results are only read. -/
theorem snd_call_of_planned {P : Evolver σ → Prop}
    (h : ∀ {α : Type} {finish : Plan → Action (Evolver σ) α},
      (∀ p u, ((finish p).result u).2 = u) → P ((do
        let p ← plan engine files inputs
        run engine files trace p
        finish p : Action (Evolver σ) α).result v).2) :
    P ((call engine files trace inputs).result v).2 := by
  obtain ⟨hevolve, htrace⟩ := snd_result_call engine files inputs v
  cases trace with
  | false =>
    rw [hevolve]
    exact h fun _ _ => rfl
  | true =>
    rw [htrace]
    refine h fun p u => ?_
    rw [Action.result_bind_get, Action.result_bind, Action.result_ofExcept]
    cases p.roots.mapM u.resultOf <;> rfl

/-- Once the evolver is up to date, a call runs batches that are each for one window. -/
theorem exists_runs_call {order : RuleOrder} (h : (refresh engine files).result v = (.ok order, w))
    (trace : Bool) (inputs : List Evolvable) : ∃ batches outcome,
      (∀ b ∈ batches, ∀ q ∈ b.queries, q.window = b.window) ∧
        Runs engine files trace batches w outcome ((call engine files trace inputs).result v).2 := by
  refine snd_call_of_planned (P := fun u => ∃ batches outcome,
    (∀ b ∈ batches, ∀ q ∈ b.queries, q.window = b.window) ∧
      Runs engine files trace batches w outcome u) fun hfinish => ?_
  rw [Action.result_bind, plan, Action.result_bind_ok h, Action.result_ofExcept]
  cases hp : Plan.ofForms order (inputs.map (·.arranged order)) with
  | error e => exact ⟨[], .ok (), List.forall_mem_nil _, .done w⟩
  | ok p =>
    have hruns := runs_run engine files trace p w
    dsimp only
    rw [Action.result_bind]
    rcases hrun : (run engine files trace p).result w with ⟨e | _, u⟩
    · rw [hrun] at hruns
      exact ⟨_, _, Plan.window_of_ofForms hp, hruns⟩
    · rw [hrun] at hruns
      dsimp only
      rw [hfinish]
      exact ⟨_, _, Plan.window_of_ofForms hp, hruns⟩

/-- Planning changes what refreshing changes. -/
theorem result_plan_snd (engine : Engine σ) (files : FileStore) (inputs : List Evolvable)
    (v : Evolver σ) :
    ((plan engine files inputs).result v).2 = ((refresh engine files).result v).2 := by
  rw [plan, Action.result_bind]
  rcases (refresh engine files).result v with ⟨e | order, u⟩ <;> rfl

/-- Planning again, with the caches as a dialogue left them, gives the same plan and changes nothing. -/
theorem result_plan_again {p : Plan} {log : List Exchange} {outcome : Except Error Unit}
    (h : (plan engine files inputs).result v = (.ok p, u))
    (hd : Dialogue engine files trace p.batches u w log outcome) :
    (plan engine files inputs).result w = (.ok p, w) := by
  obtain ⟨order, hrefresh, hp⟩ := exists_of_plan_eq_ok h
  have hagain : (refresh engine files).result w = (.ok order, w) :=
    result_refresh_again hrefresh (by rw [hd.same]) (by rw [hd.same]) (by rw [hd.same])
  rw [plan, Action.result_bind_ok hagain, Action.result_ofExcept, hp]

/-- A call whose planning fails ends there. -/
theorem result_call_of_unplanned {e : Error}
    (h : (plan engine files inputs).result v = (.error e, u)) :
    (call engine files trace inputs).result v = (.error e, u) := by
  cases trace with
  | false => exact Action.result_bind_error (Action.result_bind_error h)
  | true => exact Action.result_bind_error (Action.result_bind_error h)

/-- A trace is read from the caches once the batches were run. -/
theorem result_trace_of_planned {p : Plan} {results : List Evolved}
    (h : (plan engine files inputs).result v = (.ok p, u))
    (hrun : (run engine files true p).result u = (.ok (), w))
    (hresults : p.roots.mapM w.resultOf = .ok results) :
    (Evolver.trace engine files inputs).result v =
      (.ok ((results.zip p.roots).map fun (found, root) => (found, w.traceOf root)), w) := by
  refine (Action.result_bind_ok h).trans ((Action.result_bind_ok hrun).trans ?_)
  rw [Action.result_bind_get, Action.result_bind_ok (t := w) (x := results)
    (by rw [Action.result_ofExcept, hresults])]
  rfl

theorem of_result_trace {found : List (Evolved × Trace)}
    (h : (Evolver.trace engine files inputs).result v = (.ok found, w)) : ∃ p u results,
    (plan engine files inputs).result v = (.ok p, u) ∧ p.roots.mapM w.resultOf = .ok results ∧
      found = (results.zip p.roots).map fun (found, root) => (found, w.traceOf root) := by
  obtain ⟨p, u, hplan, h⟩ := Action.result_bind_eq_ok_iff.1 h
  obtain ⟨_, t, -, h⟩ := Action.result_bind_eq_ok_iff.1 h
  rw [Action.result_bind_get] at h
  obtain ⟨results, t', hresults, h⟩ := Action.result_bind_eq_ok_iff.1 h
  obtain ⟨hresults, rfl⟩ := Action.result_ofExcept_eq_ok_iff.1 hresults
  cases h
  exact ⟨p, u, results, hplan, hresults, rfl⟩

/-- A planned call runs the batches and fails when they do: the results of the roots are there. -/
theorem result_call_of_planned {p : Plan} {outcome : Except Error Unit}
    (h : (plan engine files inputs).result v = (.ok p, u))
    (hrun : (run engine files trace p).result u = (outcome, w))
    (hroots : outcome = .ok () → ∃ results, p.roots.mapM w.resultOf = .ok results) :
    (call engine files trace inputs).result v = (outcome, w) := by
  cases outcome with
  | error e =>
    cases trace with
    | false =>
      exact Action.result_bind_error ((Action.result_bind_ok h).trans (Action.result_bind_error hrun))
    | true =>
      exact Action.result_bind_error ((Action.result_bind_ok h).trans (Action.result_bind_error hrun))
  | ok =>
    obtain ⟨results, hresults⟩ := hroots rfl
    have hread : (do Action.ofExcept (p.roots.mapM (← get).resultOf) : Action (Evolver σ) _).result w =
        (.ok results, w) := by
      rw [Action.result_bind_get, Action.result_ofExcept, hresults]
    cases trace with
    | false =>
      exact Action.result_bind_ok ((Action.result_bind_ok h).trans
        ((Action.result_bind_ok hrun).trans hread))
    | true => exact Action.result_bind_ok (result_trace_of_planned h hrun hresults)

/-- A planned call is a dialogue over the batches of its plan, whatever the engine replies. -/
theorem exists_dialogue {kind : σ → Prop} (trace : Bool) (hcounts : engine.Counts files kind)
    (hu : kind u.engine) {p : Plan} (h : (plan engine files inputs).result v = (.ok p, u)) :
    ∃ outcome w log, (call engine files trace inputs).result v = (outcome, w) ∧
      Dialogue engine files trace p.batches u w log outcome := by
  obtain ⟨order, -, hp⟩ := exists_of_plan_eq_ok h
  have hsupplied : Supplied [] p.batches := Plan.supplied_batches hp
  have hruns := runs_run engine files trace p u
  cases hrun : (run engine files trace p).result u with
  | mk outcome w =>
    rw [hrun] at hruns
    obtain ⟨⟨log, hlog⟩, hall⟩ := hruns.exists_logged hcounts hu [] hsupplied nofun
    have htexts := hlog.texts [] hsupplied (Plan.nodup_queries hp)
    refine ⟨outcome, w, log, result_call_of_planned h hrun fun hout => ?_,
      hlog.dialogue (Plan.nodup_queries hp) htexts⟩
    refine exists_mapM_resultOf fun root hroot => hall hout root (.inr ?_)
    exact (Plan.mem_queries_iff_needed hp).2 (.root hroot)

/-- The requests that were made are those of the exchanges. -/
theorem Dialogue.requests {batches : List Batch} {v w : Evolver (σ × Calls)} {log : List Exchange}
    {outcome : Except Error Unit}
    (h : Dialogue engine.recorded files trace batches v w log outcome) :
    w.engine.2.requests = v.engine.2.requests ++ log.map (·.request trace) := by
  rw [h.replies.requests, List.map_map]
  rfl

/-- A failing call loses nothing and leaves nothing half done, whatever the engine replies. If planning
fails, the call ends with what refreshing left and asks nothing. If it does not, the call is a dialogue
with the engine: it asks each batch of the plan for the queries that were missing when it began, in
order, up to the first refusal; every answer has a place for each word; and the caches have gained the
results and trace lines of the answered requests, and nothing else. The next call on the inputs starts
from there, so that it asks only for what is still missing. -/
theorem failing_call_keeps_answers
    (respond : FileStore → Request → σ → Except Error String × σ) (reset : σ → σ)
    (files : FileStore) (trace : Bool) (inputs : List Evolvable) (v : Evolver (σ × Calls)) :
    let engine := (Engine.ofReplies respond reset).recorded
    let left := ((refresh engine files).result v).2
    let planned := ((plan engine files inputs).result v).1
    let after := (call engine files trace inputs).result v
    left.engine.2.requests = v.engine.2.requests ∧
    (∀ e, planned = .error e → after = (.error e, left)) ∧
    (∀ p, planned = .ok p →
      (∃ log, Dialogue engine files trace p.batches left after.2 log after.1 ∧
        after.2.engine.2.requests = left.engine.2.requests ++ log.map (·.request trace)) ∧
      ∀ trace', let again := (call engine files trace' inputs).result after.2
        ∃ log, Dialogue engine files trace' p.batches after.2 again.2 log again.1 ∧
          again.2.engine.2.requests = after.2.engine.2.requests ++ log.map (·.request trace')) := by
  intro engine left planned after
  have hcounts := (Engine.counts_ofReplies respond reset files).recorded
  have hplan : (plan engine files inputs).result v = (planned, left) :=
    Prod.ext rfl (result_plan_snd engine files inputs v)
  refine ⟨keeps_requests_refresh _ files v, ?_, ?_⟩
  · intro e he
    rw [he] at hplan
    exact result_call_of_unplanned hplan
  · intro p hp
    rw [hp] at hplan
    obtain ⟨outcome, w, log, hcall, hdialogue⟩ := exists_dialogue trace hcounts trivial hplan
    have hafter : after = (outcome, w) := hcall
    rw [hafter]
    refine ⟨⟨log, hdialogue, hdialogue.requests⟩, fun trace' => ?_⟩
    obtain ⟨outcome', w', log', hcall', hdialogue'⟩ :=
      exists_dialogue trace' hcounts trivial (result_plan_again hplan hdialogue)
    dsimp only
    rw [hcall']
    exact ⟨log', hdialogue', hdialogue'.requests⟩

end Evolver

end Etymon
