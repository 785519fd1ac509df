import Etymon.Proofs.Settling

/-!
# Inputs evolved one at a time

A call evolves all of its inputs together. Whatever the caches hold, what it adds to them is what the law
makes of the words that are assembled from them, and a call with fewer inputs adds nothing else. So a
call that succeeds gives each input what the input comes to alone, before the call and after it.

## Main definitions

* `Evolver.Keeps`: what is cached stays cached.
* `Evolver.Follows`: what is added to a cache follows the law.

## Main results

* `Evolver.Runs.follows`: batches follow the law.
* `Evolver.Runs.keeps_of_follows`: batches whose queries are known elsewhere bring what is known there.
* `Evolver.evolve_singly`: a call gives each input what it comes to alone.
-/

namespace Etymon.Evolver

variable {σ : Type} {engine : Engine σ} {files : FileStore} {law : Law} {laws : String → Law}
  {running : σ → Option String} {rulesPath : Path} {text : String} {b : Batch}
  {batches : List Batch} {order : RuleOrder} {inputs : List Evolvable} {t u v w : Evolver σ}
  {outcome : Except Error Unit} {q : Query} {e : Evolved}

/-- What is cached in `v` is cached in `w`, with the same words. -/
def Keeps (v w : Evolver σ) : Prop :=
  ∀ q e, v.evolved.get? q = some e → w.evolved.get? q = some e

/-- What `w` caches beyond `v` is what the law makes of the words that are assembled in `w`. -/
def Follows (law : Law) (v w : Evolver σ) : Prop :=
  ∀ q e, w.evolved.get? q = some e → v.evolved.get? q = none →
    w.wordOf q = .ok e.proto ∧ law q.start q.stop e.proto = .ok (e.modern, e.phonetic)

theorem Keeps.none (h : v.Keeps w) (hq : w.evolved.get? q = none) : v.evolved.get? q = none := by
  rw [Option.eq_none_iff_forall_ne_some] at hq ⊢
  exact fun e he => hq e (h q e he)

/-- A word that is assembled goes on to be. -/
theorem Keeps.wordOf (h : v.Keeps w) (hsyllables : w.syllables = v.syllables) {word : String}
    (hword : v.wordOf q = .ok word) : w.wordOf q = .ok word := by
  have hknown := isOk_assemble_iff.1 (show (v.wordOf q).isOk = true by rw [hword]; rfl)
  rw [wordOf_congr hsyllables fun d hd => ?_]
  · exact hword
  · obtain ⟨phonetic, hphonetic⟩ := Option.isSome_iff_exists.1 (hknown d hd)
    obtain ⟨e, he, -⟩ := Option.map_eq_some_iff.1 hphonetic
    rw [he, h d e he]

/-! ## Batches -/

section

variable (hengine : engine.WordWise laws rulesPath running) (hfile : files.read rulesPath = .ok text)
include hengine hfile

/-- What a batch brings is what the law makes of the words that it sends. -/
theorem BatchRun.law_of_new (hwindow : ∀ q ∈ b.queries, q.window = b.window)
    (htuned : v.Tuned running text) (h : BatchRun engine files false b v outcome w)
    (hw : w.evolved.get? q = some e) (hv : v.evolved.get? q = none) :
    q ∈ b.queries ∧ v.wordOf q = .ok e.proto ∧
      laws text q.start q.stop e.proto = .ok (e.modern, e.phonetic) := by
  cases h with
  | cached => cases hv.symm.trans hw
  | unassembled => cases hv.symm.trans hw
  | refused => cases hv.symm.trans hw
  | @answered words changed s hsome hwords hevolve =>
    rcases mem_evolved_stored (PersistentCache.mem_of_get? hw) with
      hentry | ⟨q', word, modern, phonetic, hmem, hanswer, heq⟩
    · have hnone := List.lookup_eq_none_iff.1 hv _ hentry
      simp at hnone
    · obtain ⟨rfl, rfl⟩ := Prod.mk.inj heq
      obtain ⟨hq, -⟩ := List.of_mem_zip hmem
      have hq := (List.mem_filter.1 hq).1
      have hword := (List.forall₂_iff_zip.1 (mapM_eq_ok_iff.1 hwords)).2 hmem
      have hwin : q.start = b.start ∧ q.stop = b.stop := Prod.ext_iff.1 (hwindow q hq)
      refine ⟨hq, hword, ?_⟩
      rw [hwin.1, hwin.2]
      exact law_of_answered hengine hfile htuned hevolve hanswer

/-- A batch goes on following the law. -/
theorem BatchRun.follows (hwindow : ∀ q ∈ b.queries, q.window = b.window)
    (htuned : v.Tuned running text) (hfollows : t.Follows (laws text) v)
    (h : BatchRun engine files false b v outcome w) : t.Follows (laws text) w := by
  have hlater : v.Keeps w := fun q e hq => h.get?_eq hq
  have hsyllables := syllables_eq_of_settled h.settled_eq
  intro q e hq hmissing
  cases hv : v.evolved.get? q with
  | some e' =>
    obtain rfl := Option.some.inj ((hlater q e' hv).symm.trans hq)
    exact (hfollows q e' hv hmissing).imp_left (hlater.wordOf hsyllables)
  | none =>
    obtain ⟨-, hword, hlaw⟩ := h.law_of_new hengine hfile hwindow htuned hq hv
    exact ⟨hlater.wordOf hsyllables hword, hlaw⟩

theorem Runs.follows (hwindow : ∀ b ∈ batches, ∀ q ∈ b.queries, q.window = b.window)
    (htuned : v.Tuned running text) (hfollows : t.Follows (laws text) v)
    (h : Runs engine files false batches v outcome w) : t.Follows (laws text) w := by
  induction h with
  | done => exact hfollows
  | next hb _ ih =>
    rw [List.forall_mem_cons] at hwindow
    exact ih hwindow.2 (hb.tuned hengine hfile htuned)
      (hb.follows hengine hfile hwindow.1 htuned hfollows)
  | stop hb =>
    rw [List.forall_mem_cons] at hwindow
    exact hb.follows hengine hfile hwindow.1 htuned hfollows

/-- Where the queries of a batch are known by following the law, the batch brings what is known. -/
theorem BatchRun.keeps_of_follows (hwindow : ∀ q ∈ b.queries, q.window = b.window)
    (htuned : v.Tuned running text) (hkeeps : t.Keeps v) (hwithin : v.Keeps u)
    (hsyllables : u.syllables = v.syllables) (hfollows : t.Follows (laws text) u)
    (hknown : ∀ q ∈ b.queries, u.evolved.contains q = true)
    (h : BatchRun engine files false b v outcome w) : w.Keeps u := by
  intro q e hq
  cases hv : v.evolved.get? q with
  | some e' =>
    obtain rfl := Option.some.inj ((h.get?_eq hv).symm.trans hq)
    exact hwithin q e' hv
  | none =>
    obtain ⟨hmem, hword, hlaw⟩ := h.law_of_new hengine hfile hwindow htuned hq hv
    obtain ⟨e', he'⟩ := Option.isSome_iff_exists.1 (hknown q hmem)
    -- both words are assembled from what is known, so the law says the same of them
    obtain ⟨hword', hlaw'⟩ := hfollows q e' he' (hkeeps.none hv)
    have hproto : e'.proto = e.proto :=
      Except.ok.inj (hword'.symm.trans (hwithin.wordOf hsyllables hword))
    rw [hproto, hlaw, Except.ok.injEq, Prod.mk.injEq] at hlaw'
    rw [he']
    obtain ⟨proto, modern, phonetic⟩ := e
    obtain ⟨proto', modern', phonetic'⟩ := e'
    simp_all

theorem Runs.keeps_of_follows (hwindow : ∀ b ∈ batches, ∀ q ∈ b.queries, q.window = b.window)
    (htuned : v.Tuned running text) (hkeeps : t.Keeps v) (hwithin : v.Keeps u)
    (hsyllables : u.syllables = v.syllables) (hfollows : t.Follows (laws text) u)
    (hknown : ∀ q ∈ batches.flatMap Batch.queries, u.evolved.contains q = true)
    (h : Runs engine files false batches v outcome w) : w.Keeps u := by
  induction h with
  | done => exact hwithin
  | next hb _ ih =>
    rw [List.forall_mem_cons] at hwindow
    rw [List.flatMap_cons, List.forall_mem_append] at hknown
    refine ih hwindow.2 (hb.tuned hengine hfile htuned) (fun q e hq => hb.get?_eq (hkeeps q e hq)) ?_
      (hsyllables.trans (syllables_eq_of_settled hb.settled_eq).symm) hknown.2
    exact hb.keeps_of_follows hengine hfile hwindow.1 htuned hkeeps hwithin hsyllables hfollows hknown.1
  | stop hb =>
    rw [List.forall_mem_cons] at hwindow
    rw [List.flatMap_cons, List.forall_mem_append] at hknown
    exact hb.keeps_of_follows hengine hfile hwindow.1 htuned hkeeps hwithin hsyllables hfollows hknown.1

end

/-- What is known by following the law is refused nowhere on the way to it. -/
theorem not_refuses_of_follows (hkeeps : t.Keeps v) (hwithin : v.Keeps u)
    (hsyllables : u.syllables = v.syllables) (hfollows : t.Follows law u)
    (hknown : u.evolved.contains q = true) : ¬ v.Refuses law q := by
  rintro ⟨hmissing, -, word, e', hword, hlaw⟩
  obtain ⟨e, he⟩ := Option.isSome_iff_exists.1 hknown
  have hnone : v.evolved.get? q = none :=
    Option.isNone_iff_eq_none.1 (Option.isSome_eq_false_iff.1 hmissing)
  obtain ⟨hword', hlaw'⟩ := hfollows q e he (hkeeps.none hnone)
  obtain rfl := Except.ok.inj (hword'.symm.trans (hwithin.wordOf hsyllables hword))
  cases hlaw.symm.trans hlaw'

/-! ## Calls -/

/-- What one of several inputs asks for is among what all of them ask for. -/
theorem exists_plan_singleton {input : Evolvable} {p : Plan}
    (hp : Plan.ofForms order (inputs.map (·.arranged order)) = .ok p) (hinput : input ∈ inputs) :
    ∃ q ∈ p.roots, Query.ofForm order (input.arranged order) = .ok q ∧
      Plan.ofForms order ([input].map (·.arranged order)) = .ok (.ofRoots [q]) ∧
      (Plan.ofRoots [q]).queries ⊆ p.queries := by
  obtain ⟨q, hmem, hq⟩ := exists_mem_zip_of_forall₂ (Plan.ofForms_eq_ok_iff.1 hp).1
    (List.mem_map_of_mem hinput)
  have hroot := (List.of_mem_zip hmem).2
  have hsingle : Plan.ofForms order ([input].map (·.arranged order)) = .ok (.ofRoots [q]) :=
    Plan.ofForms_eq_ok_iff.2 ⟨.cons hq .nil, rfl⟩
  refine ⟨q, hroot, hq, hsingle, fun d hd => ?_⟩
  rw [Plan.mem_queries_iff_needed hp]
  exact ((Plan.mem_queries_iff_needed hsingle).1 hd).mono (by simpa [Plan.ofRoots] using hroot)

/-- Settled inputs are settled one by one. -/
theorem Settles.singly {es : List Evolved} (h : v.Settles law order inputs (some es)) :
    List.Forall₂ (fun input e => v.Settles law order [input] (some [e])) inputs es := by
  cases h with
  | @answered p _ hplan hall hroots =>
    have hresults := (forall₂_roots_iff hplan).1 (mapM_eq_ok_iff.1 hroots)
    refine List.forall₂_iff_zip.2 ⟨hresults.length_eq, fun {input e} hmem => ?_⟩
    obtain ⟨q, hq, he⟩ := (List.forall₂_iff_zip.1 hresults).2 hmem
    obtain ⟨q', -, hq', hsingle, hsub⟩ := exists_plan_singleton hplan (List.of_mem_zip hmem).1
    obtain rfl := Except.ok.inj (hq.symm.trans hq')
    refine .answered hsingle (fun d hd => hall d (hsub hd)) ?_
    rw [mapM_eq_ok_iff]
    exact .cons he .nil

section

variable (hengine : engine.WordWise laws rulesPath running) (hfile : files.read rulesPath = .ok text)
include hengine hfile

/-- A call that succeeds gives each input what a call with this input alone would have given. -/
theorem evolve_singly_before {es : List Evolved}
    (hrefresh : (refresh engine files).result v = (.ok order, w)) (htuned : w.Tuned running text)
    (h : ((evolve engine files inputs).result v).1 = .ok es) :
    List.Forall₂ (fun input e => ((evolve engine files [input]).result v).1 = .ok [e]) inputs es := by
  obtain ⟨p, u, hp, hrun, hroots⟩ := (evolve_eq_ok_iff_exists hrefresh).1 h
  have hruns := runs_run engine files false p w
  rw [hrun] at hruns
  have hkeeps : w.Keeps u := fun q e hq => hruns.get?_eq hq
  have hfollows : w.Follows (laws text) u :=
    hruns.follows hengine hfile (Plan.window_of_ofForms hp) htuned fun q e hq hnone => by
      cases hnone.symm.trans hq
  have hall := (hruns.settles hengine hfile (Plan.window_of_ofForms hp) htuned []
    (Plan.supplied_batches hp) (List.forall_mem_nil _)).1 rfl
  have hsyllables := syllables_eq_of_settled hruns.settled_eq
  have hresults := (forall₂_roots_iff hp).1 (mapM_eq_ok_iff.1 hroots)
  refine List.forall₂_iff_zip.2 ⟨hresults.length_eq, fun {input e} hmem => ?_⟩
  obtain ⟨q, hq, he⟩ := (List.forall₂_iff_zip.1 hresults).2 hmem
  obtain ⟨q', -, hq', hsingle, hsub⟩ := exists_plan_singleton hp (List.of_mem_zip hmem).1
  obtain rfl := Except.ok.inj (hq.symm.trans hq')
  -- the run for the input alone brings nothing but what is known now, so nothing stops it
  have halone := runs_run engine files false (.ofRoots [q]) w
  rcases hresult : (run engine files false (.ofRoots [q])).result w with ⟨outcome, x⟩
  rw [hresult] at halone
  have hwithin : x.Keeps u := halone.keeps_of_follows hengine hfile (Plan.window_of_ofForms hsingle) htuned
    (fun _ _ hq => hq) hkeeps hsyllables hfollows fun d hd => hall d (.inr (hsub hd))
  obtain ⟨hok, herror⟩ := halone.settles hengine hfile (Plan.window_of_ofForms hsingle) htuned []
    (Plan.supplied_batches hsingle) (List.forall_mem_nil _)
  cases outcome with
  | error e' =>
    obtain ⟨d, hd, hrefuses⟩ := herror e' rfl
    exact absurd hrefuses (not_refuses_of_follows (fun q e hq => halone.get?_eq hq) hwithin
      (hsyllables.trans (syllables_eq_of_settled halone.settled_eq).symm) hfollows
      (hall d (.inr (hsub hd))))
  | ok _ =>
    have hroot : q ∈ (Plan.ofRoots [q]).queries :=
      (Plan.mem_queries_iff_needed hsingle).2 (.root (List.mem_singleton_self q))
    obtain ⟨e', he'⟩ := Option.isSome_iff_exists.1 (hok rfl q (.inr hroot))
    obtain rfl := Option.some.inj ((resultOf_eq_ok_iff.1 he).symm.trans (hwithin q e' he'))
    refine (evolve_eq_ok_iff_exists hrefresh).2 ⟨_, x, hsingle, hresult, ?_⟩
    rw [mapM_eq_ok_iff]
    exact .cons (resultOf_eq_ok_iff.2 he') .nil

/-- A call that succeeds gives each input what a call with this input alone gives, before and after. -/
theorem evolve_singly {texts : Set String} {es : List Evolved}
    (hdigest : Set.InjOn textDigest texts) (htext : text ∈ texts)
    (hv : v.Ready running texts rulesPath) (h : (evolve engine files inputs).result v = (.ok es, u)) :
    List.Forall₂ (fun input e => ((evolve engine files [input]).result v).1 = .ok [e] ∧
      ((evolve engine files [input]).result u).1 = .ok [e]) inputs es := by
  obtain ⟨w, hrefresh, hw, -⟩ := hv.exists_refresh hengine.reset hdigest htext hfile
  obtain ⟨answer, u', hresult, hready, hhash, -, -, hsettles, -⟩ :=
    hv.evolve hengine hdigest htext hfile inputs
  obtain ⟨rfl, rfl⟩ := Prod.mk.inj (h.symm.trans hresult)
  have hbefore := evolve_singly_before hengine hfile hrefresh hw.tuned (congrArg Prod.fst h)
  have hsettled := Settles.singly hsettles
  refine List.forall₂_iff_zip.2 ⟨hbefore.length_eq, fun {input e} hmem => ⟨?_, ?_⟩⟩
  · exact (List.forall₂_iff_zip.1 hbefore).2 hmem
  · obtain ⟨answer, u', hagain, -, -, -, -, hsettles', hpersists⟩ :=
      hready.evolve hengine hdigest htext hfile [input]
    have hfirst := ((List.forall₂_iff_zip.1 hsettled).2 hmem).mono (hpersists hhash).2
    rw [hagain]
    exact toOption_eq_some_iff.1 (hsettles'.unique hfirst)

end

end Etymon.Evolver
