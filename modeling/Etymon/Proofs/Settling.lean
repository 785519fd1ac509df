import Etymon.Proofs.Refreshing

/-!
# Calls that are repeated

Whatever the caches hold at first, a call settles its inputs: afterwards their queries are all cached,
or one of them is known to be refused. Later calls under the same rule file leave it at that, so the
same inputs come to the same then.

## Main definitions

* `Evolver.Refuses`: the law refuses the text of a query.
* `Evolver.Settles`: what a list of inputs comes to.
* `Evolver.Continues`: what is settled stays settled.
* `Evolver.Persists`: it does as long as the rules are the same.

## Main results

* `Evolver.Settles.unique`: inputs come to one thing.
* `Evolver.Runs.continues`: batches leave settled what is.
* `Evolver.Ready.evolve`: a call settles its inputs as it answers.
-/

namespace Etymon.Evolver

variable {σ : Type} {engine : Engine σ} {files : FileStore} {law : Law} {laws : String → Law}
  {running : σ → Option String} {rulesPath : Path} {text : String} {b : Batch}
  {batches : List Batch} {order : RuleOrder} {inputs : List Evolvable} {u v w : Evolver σ}
  {outcome : Except Error Unit} {q : Query}

/-! ## What inputs come to -/

/-- A query is not cached, and the law refuses its text, which is known. -/
structure Refuses (law : Law) (v : Evolver σ) (q : Query) : Prop where
  missing : v.evolved.contains q = false
  known : ∀ d ∈ q.dependencies, v.evolved.contains d = true
  refused : ∃ word e, v.wordOf q = .ok word ∧ law q.start q.stop word = .error e

/-- What a list of inputs comes to: nothing, if it cannot be planned or a planned query is refused; the
results of the roots, if all planned queries are cached. -/
inductive Settles (law : Law) (order : RuleOrder) (v : Evolver σ) (inputs : List Evolvable) :
    Option (List Evolved) → Prop
  | unplanned {e : Error} (hplan : Plan.ofForms order (inputs.map (·.arranged order)) = .error e) :
      Settles law order v inputs none
  | refused {p : Plan} {q : Query}
      (hplan : Plan.ofForms order (inputs.map (·.arranged order)) = .ok p)
      (hq : q ∈ p.queries) (hrefuses : v.Refuses law q) :
      Settles law order v inputs none
  | answered {p : Plan} {es : List Evolved}
      (hplan : Plan.ofForms order (inputs.map (·.arranged order)) = .ok p)
      (hall : ∀ q ∈ p.queries, v.evolved.contains q = true)
      (hroots : p.roots.mapM v.resultOf = .ok es) :
      Settles law order v inputs (some es)

/-- Inputs come to one thing. -/
theorem Settles.unique {r r' : Option (List Evolved)} (h : v.Settles law order inputs r)
    (h' : v.Settles law order inputs r') : r = r' := by
  cases h with
  | unplanned hplan =>
    cases h' with
    | unplanned _ => rfl
    | refused _ _ _ => rfl
    | answered hplan' _ _ => cases hplan.symm.trans hplan'
  | refused hplan hq hrefuses =>
    cases h' with
    | unplanned _ => rfl
    | refused _ _ _ => rfl
    | answered hplan' hall _ =>
      cases hplan.symm.trans hplan'
      cases (hall _ hq).symm.trans hrefuses.missing
  | answered hplan hall hroots =>
    cases h' with
    | unplanned hplan' => cases hplan.symm.trans hplan'
    | refused hplan' hq hrefuses =>
      cases hplan.symm.trans hplan'
      cases (hall _ hq).symm.trans hrefuses.missing
    | answered hplan' _ hroots' =>
      cases hplan.symm.trans hplan'
      rw [hroots, Except.ok.injEq] at hroots'
      rw [hroots']

/-! ## What stays settled -/

/-- What is cached stays, and so does what is refused. -/
structure Continues (law : Law) (v w : Evolver σ) : Prop where
  kept : ∀ q e, v.evolved.get? q = some e → w.evolved.get? q = some e
  refuses : ∀ q, v.Refuses law q → w.Refuses law q

namespace Continues

theorem refl (law : Law) (v : Evolver σ) : v.Continues law v :=
  ⟨fun _ _ h => h, fun _ h => h⟩

/-- Nothing but the entries and the way of joining words counts. -/
theorem of_entries (hentries : w.evolved.entries = v.evolved.entries)
    (hsyllables : w.syllables = v.syllables) : v.Continues law w := by
  have hget : ∀ q, w.evolved.get? q = v.evolved.get? q := fun q => by
    rw [PersistentCache.get?, PersistentCache.get?, hentries]
  have hcontains : ∀ q, w.evolved.contains q = v.evolved.contains q := fun q => by
    rw [PersistentCache.contains, PersistentCache.contains, hget]
  refine ⟨fun q e hq => (hget q).trans hq, fun q hq => ⟨(hcontains q).trans hq.missing,
    fun d hd => (hcontains d).trans (hq.known d hd), ?_⟩⟩
  rw [wordOf_congr hsyllables fun d _ => hget d]
  exact hq.refused

theorem trans (h : v.Continues law w) (h' : w.Continues law u) : v.Continues law u :=
  ⟨fun q e hq => h'.kept q e (h.kept q e hq), fun q hq => h'.refuses q (h.refuses q hq)⟩

theorem contains (h : v.Continues law w) (hq : v.evolved.contains q = true) :
    w.evolved.contains q = true := by
  rw [PersistentCache.contains, Option.isSome_iff_exists] at hq ⊢
  exact hq.imp (h.kept q)

end Continues

theorem Settles.mono {r : Option (List Evolved)} (h : v.Settles law order inputs r)
    (hlater : v.Continues law w) : w.Settles law order inputs r := by
  cases h with
  | unplanned hplan => exact .unplanned hplan
  | refused hplan hq hrefuses => exact .refused hplan hq (hlater.refuses _ hrefuses)
  | answered hplan hall hroots =>
    refine .answered hplan (fun q hq => hlater.contains (hall q hq)) ?_
    rw [mapM_eq_ok_iff] at hroots ⊢
    exact hroots.imp fun root e he =>
      resultOf_eq_ok_iff.2 (hlater.kept root e (resultOf_eq_ok_iff.1 he))

/-- The evolver goes on under the same rules, if they are those that it is at work on. -/
def Persists (law : Law) (rules : String) (v w : Evolver σ) : Prop :=
  v.rulesHash = some (textDigest rules) →
    w.rulesHash = some (textDigest rules) ∧ v.Continues law w

namespace Persists

variable {rules : String}

theorem refl (law : Law) (rules : String) (v : Evolver σ) : v.Persists law rules v :=
  fun hhash => ⟨hhash, .refl law v⟩

theorem trans (h : v.Persists law rules w) (h' : w.Persists law rules u) :
    v.Persists law rules u := by
  intro hhash
  obtain ⟨hhash', hcontinues⟩ := h hhash
  obtain ⟨hhash'', hcontinues'⟩ := h' hhash'
  exact ⟨hhash'', hcontinues.trans hcontinues'⟩

end Persists

/-! ## Batches -/

section

variable (hengine : engine.WordWise laws rulesPath running) (hfile : files.read rulesPath = .ok text)
include hengine hfile

/-- An engine that answers a batch refuses none of its words. -/
theorem law_eq_ok_of_answered (htuned : v.Tuned running text) {words : List String}
    {changed : Changed} {s : σ}
    (hevolve : engine.evolve files (requestFor words b false) v.engine = (.ok changed, s))
    {word : String} (hword : word ∈ words) : ∃ found, laws text b.start b.stop word = .ok found := by
  have huses := htuned.uses hfile
  cases hlaw : (requestFor words b false).words.mapM (laws text b.start b.stop) with
  | error e =>
    obtain ⟨e', he'⟩ := hengine.refusal (r := requestFor words b false) huses hlaw
    rw [hevolve] at he'
    cases he'
  | ok found => exact exists_mapM_eq_ok_iff.1 ⟨found, hlaw⟩ word (mem_distinct.2 hword)

/-- A batch leaves settled what is: a cached query is not asked for, and no answer brings a query that
is refused. -/
theorem BatchRun.continues (hwindow : ∀ q ∈ b.queries, q.window = b.window)
    (htuned : v.Tuned running text) (h : BatchRun engine files false b v outcome w) :
    v.Continues (laws text) w := by
  have hkept : ∀ q e, v.evolved.get? q = some e → w.evolved.get? q = some e :=
    fun q e hq => h.get?_eq hq
  refine ⟨hkept, fun q hq => ?_⟩
  obtain ⟨hmissing, hknown, word, e, hword, hlaw⟩ := hq
  have hknown' : ∀ d ∈ q.dependencies, w.evolved.get? d = v.evolved.get? d := by
    intro d hd
    obtain ⟨found, hfound⟩ := Option.isSome_iff_exists.1 (hknown d hd)
    rw [hfound, hkept d found hfound]
  refine ⟨?_, fun d hd => ?_, word, e, ?_, hlaw⟩
  · cases h with
    | cached => exact hmissing
    | unassembled => exact hmissing
    | refused => exact hmissing
    | @answered words changed s hsome hwords hevolve =>
      rw [PersistentCache.contains, get?_evolved_stored]
      · exact hmissing
      · rintro ⟨q', word'⟩ hmem rfl
        have hpair := (List.forall₂_iff_zip.1 (mapM_eq_ok_iff.1 hwords)).2 hmem
        obtain ⟨hpending, hmem'⟩ := List.of_mem_zip hmem
        have hwin := Prod.ext_iff.1 (hwindow q (List.mem_filter.1 hpending).1)
        obtain ⟨found, hfound⟩ := law_eq_ok_of_answered hengine hfile htuned hevolve hmem'
        rw [hword, Except.ok.injEq] at hpair
        rw [← hpair, ← show q.start = b.start from hwin.1, ← show q.stop = b.stop from hwin.2,
          hlaw] at hfound
        cases hfound
  · rw [PersistentCache.contains, hknown' d hd]
    exact hknown d hd
  · rw [wordOf_congr (syllables_eq_of_settled h.settled_eq) hknown']
    exact hword

/-- A batch that finds what it needs fails because one of its queries is refused. -/
theorem BatchRun.exists_refuses (hwindow : ∀ q ∈ b.queries, q.window = b.window)
    (htuned : v.Tuned running text)
    (hfound : ∀ q ∈ b.queries, ∀ d ∈ q.dependencies, v.evolved.contains d = true) {e : Error}
    (h : BatchRun engine files false b v (.error e) w) :
    ∃ q ∈ b.queries, w.Refuses (laws text) q := by
  cases h with
  | unassembled hwords =>
    obtain ⟨q, hq, hword⟩ := eq_error_of_mapM hwords
    obtain ⟨word, hword'⟩ := exists_wordOf_eq_ok (hfound q (List.mem_filter.1 hq).1)
    rw [hword'] at hword
    cases hword
  | @refused words _ s hsome hwords hevolve =>
    have huses := htuned.uses hfile
    cases hlaw : (requestFor words b false).words.mapM (laws text b.start b.stop) with
    | ok found =>
      obtain ⟨lines, hchanged⟩ := hengine.answer (r := requestFor words b false) huses hlaw
      rw [hevolve] at hchanged
      cases hchanged
    | error e' =>
      obtain ⟨word, hword, hrefused⟩ := eq_error_of_mapM hlaw
      obtain ⟨q, hq, hqword⟩ := exists_of_mem_forall₂ (mapM_eq_ok_iff.1 hwords) (mem_distinct.1 hword)
      obtain ⟨hmem, hpending⟩ := List.mem_filter.1 hq
      have hwin := Prod.ext_iff.1 (hwindow q hmem)
      refine ⟨q, hmem, ?_, hfound q hmem, word, e', hqword, ?_⟩
      · change v.evolved.contains q = false
        simpa [isPending] using hpending
      · rw [show q.start = b.start from hwin.1, show q.stop = b.stop from hwin.2]
        exact hrefused

theorem Runs.continues (hwindow : ∀ b ∈ batches, ∀ q ∈ b.queries, q.window = b.window)
    (htuned : v.Tuned running text) (h : Runs engine files false batches v outcome w) :
    v.Continues (laws text) w ∧ w.Tuned running text := by
  induction h with
  | done => exact ⟨.refl _ _, htuned⟩
  | next hb _ ih =>
    rw [List.forall_mem_cons] at hwindow
    obtain ⟨hrest, htuned'⟩ := ih hwindow.2 (hb.tuned hengine hfile htuned)
    exact ⟨(hb.continues hengine hfile hwindow.1 htuned).trans hrest, htuned'⟩
  | stop hb =>
    rw [List.forall_mem_cons] at hwindow
    exact ⟨hb.continues hengine hfile hwindow.1 htuned, hb.tuned hengine hfile htuned⟩

/-- Batches that find what they need cache all their queries, or come to one that is refused. -/
theorem Runs.settles (hwindow : ∀ b ∈ batches, ∀ q ∈ b.queries, q.window = b.window)
    (htuned : v.Tuned running text) (done : List Query) (hsupplied : Supplied done batches)
    (hdone : ∀ q ∈ done, v.evolved.contains q = true)
    (h : Runs engine files false batches v outcome w) :
    (outcome = .ok () → ∀ q, q ∈ done ∨ q ∈ batches.flatMap Batch.queries →
      w.evolved.contains q = true) ∧
    ∀ e, outcome = .error e → ∃ q ∈ batches.flatMap Batch.queries, w.Refuses (laws text) q := by
  induction h generalizing done with
  | done v => exact ⟨fun _ q hq => hdone q (by simpa using hq), nofun⟩
  | @next b rest v w u outcome hb hrest ih =>
    obtain ⟨hfound, hsupplied⟩ := hsupplied
    rw [List.forall_mem_cons] at hwindow
    have hdone' : ∀ q ∈ done ++ b.queries, w.evolved.contains q = true := by
      intro q hq
      rcases List.mem_append.1 hq with hq | hq
      · exact hb.contains (hdone q hq)
      · exact hb.contains_queries (fun _ _ _ => (hengine.counts hfile).counts htuned) hq
    obtain ⟨hok, herror⟩ := ih hwindow.2 (hb.tuned hengine hfile htuned) _ hsupplied hdone'
    refine ⟨fun hout q hq => hok hout q (by simpa [or_assoc] using hq), fun e he => ?_⟩
    obtain ⟨q, hq, hrefuses⟩ := herror e he
    exact ⟨q, by simp [hq], hrefuses⟩
  | stop hb =>
    rw [List.forall_mem_cons] at hwindow
    refine ⟨nofun, fun _ _ => ?_⟩
    obtain ⟨q, hq, hrefuses⟩ := hb.exists_refuses hengine hfile hwindow.1 htuned
      fun q hq d hd => hdone d (hsupplied.1 q hq d hd)
    exact ⟨q, by simp [hq], hrefuses⟩

end

/-! ## Calls -/

/-- What a call leaves behind is at work on the text that the call was refreshed to. -/
theorem Ready.of_settled {texts : Set String} (htext : text ∈ texts)
    (hv : v.Ready running texts rulesPath) (hw : Refreshed running texts text v w)
    (htuned : u.Tuned running text) (hsettled : u.settled = w.settled) :
    u.Ready running texts rulesPath ∧ u.rulesHash = some (textDigest text) ∧
      v.evolved.Alike u.evolved ∧ v.traces.Alike u.traces := by
  obtain ⟨rfl, -, hevolved, htraces, -⟩ := hv
  simp only [settled, PersistentCache.emptied, Prod.mk.injEq, PersistentCache.mk.injEq] at hsettled
  obtain ⟨hrules, horder, hhash, -, ⟨hpath, hsources, hsettings, -⟩, hpath', hsources', hsettings',
    -⟩ := hsettled
  have halike : v.evolved.Alike u.evolved :=
    ⟨hpath.trans hw.evolved.1, hsources.trans hw.evolved.2.1, hsettings.trans hw.evolved.2.2⟩
  have halike' : v.traces.Alike u.traces :=
    ⟨hpath'.trans hw.traces.1, hsources'.trans hw.traces.2.1, hsettings'.trans hw.traces.2.2⟩
  refine ⟨⟨hrules.trans hw.path, by rw [horder]; exact hw.order, halike.2.1.trans hevolved,
    halike'.2.1.trans htraces, .inr ⟨text, htext, hhash.trans hw.hash, htuned⟩⟩,
    hhash.trans hw.hash, halike, halike'⟩

/-- A call settles its inputs as it answers, and leaves settled what is. -/
theorem Ready.evolve {texts : Set String} (hengine : engine.WordWise laws rulesPath running)
    (hdigest : Set.InjOn textDigest texts) (htext : text ∈ texts)
    (hread : files.read rulesPath = .ok text) (hv : v.Ready running texts rulesPath)
    (inputs : List Evolvable) :
    ∃ answer u, (evolve engine files inputs).result v = (answer, u) ∧
      u.Ready running texts rulesPath ∧ u.rulesHash = some (textDigest text) ∧
      v.evolved.Alike u.evolved ∧ v.traces.Alike u.traces ∧
      u.Settles (laws text) (.parse text) inputs answer.toOption ∧
      v.Persists (laws text) text u := by
  obtain ⟨w, hrefresh, hw, -, hunchanged, -⟩ := hv.exists_refresh hengine.reset hdigest htext hread
  have hcontinues : v.rulesHash = some (textDigest text) → v.Continues (laws text) w :=
    fun hhash => .of_entries (by rw [hunchanged hhash]) hw.syllables
  rw [Evolver.evolve, Action.result_bind, plan, Action.result_bind_ok hrefresh, Action.result_ofExcept]
  cases hp : Plan.ofForms (.parse text) (inputs.map (·.arranged (.parse text))) with
  | error e =>
    obtain ⟨hready, hhash, halike, halike'⟩ := hv.of_settled htext hw hw.tuned rfl
    exact ⟨_, w, rfl, hready, hhash, halike, halike', .unplanned hp, fun h => ⟨hhash, hcontinues h⟩⟩
  | ok p =>
    have hwindow := Plan.window_of_ofForms hp
    have hruns := runs_run engine files false p w
    have hsettled := hruns.settled_eq
    obtain ⟨hrest, htuned⟩ := hruns.continues hengine hread hwindow hw.tuned
    obtain ⟨hok, herror⟩ := hruns.settles hengine hread hwindow hw.tuned [] (Plan.supplied_batches hp)
      (List.forall_mem_nil _)
    dsimp only
    rw [Action.result_bind]
    rcases hrun : (run engine files false p).result w with ⟨e | _, u⟩
    · rw [hrun] at hsettled hrest htuned herror
      obtain ⟨hready, hhash, halike, halike'⟩ := hv.of_settled htext hw htuned hsettled
      obtain ⟨q, hq, hrefuses⟩ := herror e rfl
      exact ⟨_, u, rfl, hready, hhash, halike, halike', .refused hp hq hrefuses,
        fun h => ⟨hhash, (hcontinues h).trans hrest⟩⟩
    · rw [hrun] at hsettled hrest htuned hok
      obtain ⟨hready, hhash, halike, halike'⟩ := hv.of_settled htext hw htuned hsettled
      have hall : ∀ q ∈ p.queries, u.evolved.contains q = true := fun q hq => hok rfl q (.inr hq)
      obtain ⟨es, hes⟩ := exists_mapM_resultOf fun root hroot =>
        hall root ((Plan.mem_queries_iff_needed hp).2 (.root hroot))
      dsimp only
      rw [Action.result_bind_get, Action.result_ofExcept, hes]
      exact ⟨_, u, rfl, hready, hhash, halike, halike', .answered hp hall hes,
        fun h => ⟨hhash, (hcontinues h).trans hrest⟩⟩

end Etymon.Evolver
