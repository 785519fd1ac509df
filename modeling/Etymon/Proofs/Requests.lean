import Etymon.Proofs.Standing
import Mathlib.Logic.Relation

/-!
# Nothing is sent twice

A call sends what its caches miss, batch by batch, and each text once. As long as the rule file is
unchanged, whatever was evolved is not sent again: caches only grow, and what is saved comes back.

## Main definitions

* `Evolver.Grows`: no key of a cache is lost.
* `Site.Next`: what can happen to a site while rule file and settings are unchanged.
* `Site.Later`: what such events lead to.

## Main results

* `Evolver.Dialogue.eq_nil`: a dialogue over batches of which nothing is missing is empty.
* `Site.Stands.grows`: no event loses a key.
* `Site.nothing_sent_twice`: the requests of a call, and of calls that follow it.
-/

namespace Etymon

/-- Keeping a record of the requests makes no difference to an engine that evolves word by word. -/
theorem Engine.WordWise.recorded {σ : Type} {engine : Engine σ} {law : String → Law} {rulesPath : Path}
    {running : σ → Option String} (h : engine.WordWise law rulesPath running) :
    engine.recorded.WordWise law rulesPath (running ∘ Prod.fst) :=
  ⟨fun s => h.reset s.1, h.answer, h.refusal, h.keeps⟩

theorem Engine.marks_true {σ : Type} (engine : Engine σ) (law : String → Law)
    (running : σ → Option String) (rulesPath : Path) (text : String) :
    engine.Marks law running rulesPath text fun _ _ _ => True := by
  constructor
  intros
  trivial

namespace Evolver

variable {σ : Type} {engine : Engine σ} {files : FileStore} {trace trace' : Bool}
  {batches : List Batch} {log : List Exchange} {outcome : Except Error Unit} {q : Query}
  {v w u : Evolver σ}

/-! ## What is not missing -/

/-- What either cache has a key for, it goes on to. -/
structure Grows (v w : Evolver σ) : Prop where
  evolved : ∀ q, v.evolved.contains q = true → w.evolved.contains q = true
  traces : ∀ q, v.traces.contains q = true → w.traces.contains q = true

theorem Grows.trans (hvw : v.Grows w) (hwu : w.Grows u) : v.Grows u :=
  ⟨fun q hq => hwu.evolved q (hvw.evolved q hq), fun q hq => hwu.traces q (hvw.traces q hq)⟩

theorem grows_of_entries_eq (hevolved : w.evolved.entries = v.evolved.entries)
    (htraces : w.traces.entries = v.traces.entries) : v.Grows w := by
  constructor <;> intro q hq
  · rwa [PersistentCache.contains, PersistentCache.get?, hevolved]
  · rwa [PersistentCache.contains, PersistentCache.get?, htraces]

/-- What is not missing for a call is not missing later, and neither for a call that asks for less. -/
theorem Grows.not_isPending (h : v.Grows w) (htrace : trace' = true → trace = true)
    (hq : v.isPending trace q = false) : w.isPending trace' q = false := by
  rw [isPending_eq_false_iff] at hq ⊢
  exact ⟨h.evolved q hq.1, fun hasks => h.traces q (hq.2 (htrace hasks))⟩

theorem isPending_congr (hevolved : w.evolved.entries = v.evolved.entries)
    (htraces : w.traces.entries = v.traces.entries) : w.isPending trace = v.isPending trace := by
  funext q
  simp only [isPending, PersistentCache.contains, PersistentCache.get?, hevolved, htraces]

theorem Dialogue.grows (h : Dialogue engine files trace batches v w log outcome) : v.Grows w :=
  ⟨fun _ => h.contains_evolved, fun _ => h.contains_traces⟩

/-- A dialogue over batches of which nothing is missing is empty. -/
theorem Dialogue.eq_nil (h : Dialogue engine files trace batches v w log outcome)
    (hnone : ∀ q ∈ batches.flatMap Batch.queries, v.isPending trace q = false) :
    log = [] ∧ outcome = .ok () := by
  have htodo : batches.filter (fun b => v.pending trace b ≠ []) = [] := by
    refine List.filter_eq_nil_iff.2 fun b hb => ?_
    have hpending : v.pending trace b = [] := List.filter_eq_nil_iff.2 fun q hq => by
      rw [hnone q (List.mem_flatMap.2 ⟨b, hb, hq⟩)]
      exact Bool.false_ne_true
    simp [hpending]
  have hlog : log = [] := by
    have hinOrder := h.inOrder
    rw [htodo, List.prefix_nil, List.map_eq_nil_iff] at hinOrder
    exact hinOrder
  subst hlog
  rcases h.ending with ⟨hok, -⟩ | ⟨answered, x, e, hlog, -⟩
  · exact ⟨rfl, hok⟩
  · simp at hlog

/-- The texts of a request are the plain texts of the queries that were asked for. -/
theorem Dialogue.mapM_naiveText {law : Law} (h : Dialogue engine files trace batches v w log outcome)
    (hw : w.Sound law) {x : Exchange} (hx : x ∈ log) :
    (v.pending trace x.batch).mapM (Query.naiveText law w.syllables) = .ok (x.asked.map Prod.snd) := by
  rw [← h.asked x hx, mapM_eq_ok_iff, List.forall₂_map_left_iff, List.forall₂_map_right_iff,
    List.forall₂_same]
  exact fun item hitem => hw.naiveText_of_wordOf (h.texts x hx item hitem)

end Evolver

/-! ## What follows -/

namespace Site

variable {σ : Type} {engine : Engine σ} {law : String → Law} {running : σ → Option String}
  {good : String → Query → List TraceLine → Prop} {rulesPath cacheDir : Path} {text : String}
  {s t : Site σ}

/-- What can happen to a site while the text of the rule file and the settings stay. A new evolver is
opened when the caches could be saved. -/
inductive Next (engine : Engine σ) (running : σ → Option String) (text : String)
    (rulesPath cacheDir : Path) : Site σ → Site σ → Prop
  | call (s : Site σ) (trace : Bool) (inputs : List Evolvable) :
      Next engine running text rulesPath cacheDir s
        ⟨s.files, ((Evolver.call engine s.files trace inputs).result s.evolver).2⟩
  | flush (s : Site σ) :
      Next engine running text rulesPath cacheDir s
        ⟨(s.evolver.flush s.files).2.1, (s.evolver.flush s.files).2.2⟩
  | touch (s : Site σ) (time : Nat) (files : FileStore)
      (hwrite : { s.files with clock := time }.write rulesPath text = .ok files) :
      Next engine running text rulesPath cacheDir s ⟨files, s.evolver⟩
  | reopen (s : Site σ) (state : σ) (hidle : running state = none)
      (hsaves : s.evolver.Saves s.files) :
      Next engine running text rulesPath cacheDir s
        ⟨s.evolver.close s.files,
          .opened (s.evolver.close s.files) rulesPath cacheDir state s.evolver.syllables⟩

def Later (engine : Engine σ) (running : σ → Option String) (text : String)
    (rulesPath cacheDir : Path) : Site σ → Site σ → Prop :=
  Relation.ReflTransGen (Next engine running text rulesPath cacheDir)

theorem Stands.step_of_next (hs : s.Stands law running good rulesPath cacheDir text)
    (hst : Next engine running text rulesPath cacheDir s t) :
    Step engine running {text} rulesPath cacheDir s t := by
  cases hst with
  | call trace inputs => exact step_call s hs.timely trace inputs
  | flush => exact .flush s
  | touch time files hwrite => exact .edit s text time files (Set.mem_singleton text) hwrite
  | reopen state hidle hsaves => exact .reopen s state s.evolver.syllables hidle

/-- A new evolver has the keys that the old one saved. -/
theorem Stands.grows_opened (hengine : engine.WordWise law rulesPath running)
    (hmarks : engine.Marks law running rulesPath text good)
    (hs : s.Stands law running good rulesPath cacheDir text) {state : σ}
    (hidle : running state = none) (hsaves : s.evolver.Saves s.files) :
    s.evolver.Grows (.opened (s.evolver.close s.files) rulesPath cacheDir state
      s.evolver.syllables) := by
  have hread := (hs.step hengine hmarks (.reopen s state s.evolver.syllables hidle)).read_eq
  obtain ⟨⟨unsaved, unsaved', hclosed⟩, hsaved⟩ := hs.evolver.close hs.upheld.apart.1
  obtain ⟨hevolved, htraces⟩ := hsaved hsaves
  constructor <;> intro q hq
  · have hkey := hclosed.evolved.contains_load hread hevolved hsaves.evolvedDepth hq
    dsimp only at hkey
    rw [hs.upheld.evolver.evolvedPath, hs.upheld.evolver.consistent.settings] at hkey
    exact hkey
  · have hkey := hclosed.traces.contains_load hread htraces hsaves.tracesDepth hq
    dsimp only at hkey
    rw [hs.upheld.evolver.tracesPath, hs.evolver.settings] at hkey
    exact hkey

/-- No event loses a key. -/
theorem Stands.grows (hengine : engine.WordWise law rulesPath running)
    (hmarks : engine.Marks law running rulesPath text good)
    (hs : s.Stands law running good rulesPath cacheDir text)
    (hst : Next engine running text rulesPath cacheDir s t) : s.evolver.Grows t.evolver := by
  cases hst with
  | call trace inputs =>
    obtain ⟨w, hw, -, ⟨e, -, hcall⟩ | ⟨p, outcome, u, log, -, hcall, hdialogue⟩⟩ :=
      hs.exists_dialogue hengine trace inputs
    · rw [hcall]
      exact Evolver.grows_of_entries_eq hw.evolved hw.traces
    · rw [hcall]
      exact (Evolver.grows_of_entries_eq hw.evolved hw.traces).trans hdialogue.grows
  | flush =>
    obtain ⟨-, unsaved, unsaved', hflush⟩ := s.evolver.puts_flush s.files
    rw [hflush]
    exact Evolver.grows_of_entries_eq rfl rfl
  | touch time files hwrite => exact Evolver.grows_of_entries_eq rfl rfl
  | reopen state hidle hsaves => exact hs.grows_opened hengine hmarks hidle hsaves

theorem Stands.later (hengine : engine.WordWise law rulesPath running)
    (hmarks : engine.Marks law running rulesPath text good)
    (hs : s.Stands law running good rulesPath cacheDir text)
    (hst : Later engine running text rulesPath cacheDir s t) :
    t.Stands law running good rulesPath cacheDir text ∧ s.evolver.Grows t.evolver := by
  induction hst with
  | refl => exact ⟨hs, Evolver.grows_of_entries_eq rfl rfl⟩
  | tail _ hnext ih =>
    obtain ⟨hstands, hgrows⟩ := ih
    exact ⟨hstands.step hengine hmarks (hstands.step_of_next hnext),
      hgrows.trans (hstands.grows hengine hmarks hnext)⟩

/-- The requests that a call makes, each with its batch and the texts of what the batch misses. -/
theorem Stands.exists_sent {s : Site (σ × Calls)} (hengine : engine.WordWise law rulesPath running)
    (hs : s.Stands law (running ∘ Prod.fst) (fun _ _ _ => True) rulesPath cacheDir text) (trace : Bool)
    (inputs : List Evolvable) :
    let planned := Plan.ofForms (.parse text) (inputs.map (·.arranged (.parse text)))
    let called := (Evolver.call engine.recorded s.files trace inputs).result s.evolver
    ∃ sent : List (Batch × List String),
      called.2.engine.2.requests = s.evolver.engine.2.requests ++
        sent.map (fun x => Evolver.requestFor x.2 x.1 trace) ∧
      (∀ e, planned = .error e → sent = []) ∧
      (∀ p, planned = .ok p →
        let missing := p.batches.filter fun b => s.evolver.pending trace b ≠ []
        sent.map Prod.fst <+: missing ∧ (called.1 = .ok () → sent.map Prod.fst = missing)) ∧
      ∀ x ∈ sent, s.evolver.pending trace x.1 ≠ [] ∧ (s.evolver.pending trace x.1).mapM
        (Query.naiveText (law text) s.evolver.syllables) = .ok x.2 := by
  intro planned called
  have hengine' := hengine.recorded
  have hupheld := (hs.call hengine' (engine.recorded.marks_true _ _ _ _) trace inputs).upheld
  obtain ⟨w, hw, -, ⟨e, hp, hcall⟩ | ⟨p, outcome, u, log, hp, hcall, hdialogue⟩⟩ :=
    hs.exists_dialogue hengine' trace inputs
  · refine ⟨[], ?_, fun _ _ => rfl, fun p hp' => ?_, by simp⟩
    · change called = _ at hcall
      rw [hcall, hw.engine]
      simp
    · cases hp.symm.trans hp'
  · have hpending : ∀ b, w.pending trace b = s.evolver.pending trace b := by
      intro b
      rw [Evolver.pending, Evolver.isPending_congr hw.evolved hw.traces, Evolver.pending]
    have hsyllables : u.syllables = s.evolver.syllables := by
      rw [hdialogue.same, hw.syllables]
    rw [hcall] at hupheld
    change called = _ at hcall
    refine ⟨log.map fun x => (x.batch, x.asked.map Prod.snd), ?_, fun e hp' => ?_, ?_, ?_⟩
    · rw [hcall, hdialogue.requests, hw.engine, List.map_map]
      rfl
    · cases hp.symm.trans hp'
    · intro p' hp'
      cases hp.symm.trans hp'
      have hinOrder := hdialogue.inOrder
      have hending := hdialogue.ending
      simp only [hpending] at hinOrder hending
      dsimp only
      rw [hcall, List.map_map]
      refine ⟨hinOrder, fun hok => ?_⟩
      rcases hending with ⟨-, -, hall⟩ | ⟨-, -, e, -, -, -, he⟩
      · exact hall
      · cases hok.symm.trans he
    · intro x hx
      obtain ⟨y, hy, rfl⟩ := List.mem_map.1 hx
      rw [← hpending, ← hsyllables]
      have hmissing := (List.mem_filter.1 (hdialogue.inOrder.subset (List.mem_map_of_mem hy))).2
      exact ⟨by simpa using hmissing, hdialogue.mapM_naiveText hupheld.sound hy⟩

/-- A call on what was evolved before, at any later time, succeeds and sends nothing. -/
theorem Stands.repeated {s t : Site (σ × Calls)} (hengine : engine.WordWise law rulesPath running)
    (hs : s.Stands law (running ∘ Prod.fst) (fun _ _ _ => True) rulesPath cacheDir text)
    {trace trace' : Bool} {inputs again : List Evolvable}
    (hcalled : ((Evolver.call engine.recorded s.files trace inputs).result s.evolver).1 = .ok ())
    (ht : Later engine.recorded (running ∘ Prod.fst) text rulesPath cacheDir ⟨s.files,
      ((Evolver.call engine.recorded s.files trace inputs).result s.evolver).2⟩ t)
    (hagain : again ⊆ inputs) (htrace : trace' = true → trace = true) :
    ((Evolver.call engine.recorded t.files trace' again).result t.evolver).1 = .ok () ∧
      ((Evolver.call engine.recorded t.files trace' again).result t.evolver).2.engine.2.requests =
        t.evolver.engine.2.requests := by
  have hengine' := hengine.recorded
  have hmarks := engine.recorded.marks_true law (running ∘ Prod.fst) rulesPath text
  obtain ⟨hstands, hgrows⟩ := (hs.call hengine' hmarks trace inputs).later hengine' hmarks ht
  obtain ⟨w, -, -, ⟨e, -, hcall⟩ | ⟨p, outcome, u, log, hp, hcall, hdialogue⟩⟩ :=
    hs.exists_dialogue hengine' trace inputs
  · rw [hcall] at hcalled
    cases hcalled
  rw [hcall] at hcalled hgrows
  dsimp only at hcalled hgrows
  subst hcalled
  obtain ⟨p', hp', hroots⟩ := Plan.exists_ofForms_of_subset hp (List.map_subset _ hagain)
  obtain ⟨w', hw', -, ⟨e, he, -⟩ | ⟨found, outcome', u', log', hfound, hcall', hdialogue'⟩⟩ :=
    hstands.exists_dialogue hengine' trace' again
  · cases hp'.symm.trans he
  cases hp'.symm.trans hfound
  -- whatever the second plan needs, the first one needed
  have hnone : ∀ q ∈ p'.queries, w'.isPending trace' q = false := by
    intro q hq
    rw [Evolver.isPending_congr hw'.evolved hw'.traces]
    refine hgrows.not_isPending htrace (hdialogue.not_isPending ?_)
    exact (Plan.mem_queries_iff_needed hp).2 (((Plan.mem_queries_iff_needed hp').1 hq).mono hroots)
  obtain ⟨rfl, rfl⟩ := hdialogue'.eq_nil hnone
  rw [hcall']
  refine ⟨rfl, ?_⟩
  rw [hdialogue'.requests, hw'.engine, List.map_nil, List.append_nil]

/-- The engine of the voicing rule with a record of its requests, and a site where it is to be used. -/
abbrev voicingRecorded : Engine (Option String × Calls) :=
  (Engine.ofLaw voicing ⟨"changes.lsc"⟩).recorded

def voicingSite : Site (Option String × Calls) where
  files := voicingFiles
  evolver := .opened voicingFiles ⟨"changes.lsc"⟩ ⟨"cache"⟩ (none, ⟨[], 0⟩) true

def voicingTraced : Except Error Unit × Evolver (Option String × Calls) :=
  (Evolver.call voicingRecorded voicingSite.files true [.text "ata"]).result voicingSite.evolver

def voicingClosed : FileStore :=
  voicingTraced.2.close voicingFiles

theorem saves_voicingTraced : voicingTraced.2.Saves voicingFiles where
  evolved := by rfl
  traces := by rfl
  evolvedDepth := by decide
  tracesDepth := by decide

set_option maxRecDepth 4000 in
/-- The whole of a concrete call is evaluated here. -/
theorem requests_voicingTraced :
    voicingTraced.2.engine.2.requests = [.make ["ata"] none none true] := by
  rfl

/-- Nothing is sent twice while the rule file is unchanged. A call asks for what the caches miss of its
plan: one request for each batch of which something is missing, in order, whose words are the distinct
texts of what is missing, in order. Once it has succeeded, a call on any of its inputs succeeds without
a request, also after the evolver was closed, which could save the caches, and opened again; after
evolving this holds for evolving, and after tracing for both. -/
theorem nothing_sent_twice {s : Site (σ × Calls)} (hengine : engine.WordWise law rulesPath running)
    (hs : s.Reached engine.recorded (running ∘ Prod.fst) {text} rulesPath cacheDir) (trace : Bool)
    (inputs : List Evolvable) :
    let planned := Plan.ofForms (.parse text) (inputs.map (·.arranged (.parse text)))
    let called := (Evolver.call engine.recorded s.files trace inputs).result s.evolver
    (∃ sent : List (Batch × List String),
      called.2.engine.2.requests = s.evolver.engine.2.requests ++
        sent.map (fun x => Evolver.requestFor x.2 x.1 trace) ∧
      (∀ e, planned = .error e → sent = []) ∧
      (∀ p, planned = .ok p →
        let missing := p.batches.filter fun b => s.evolver.pending trace b ≠ []
        sent.map Prod.fst <+: missing ∧ (called.1 = .ok () → sent.map Prod.fst = missing)) ∧
      ∀ x ∈ sent,
        (s.evolver.pending trace x.1).mapM (Query.naiveText (law text) s.evolver.syllables) =
          .ok x.2 ∧
        (Evolver.requestFor x.2 x.1 trace).words = distinct x.2 ∧
        (Evolver.requestFor x.2 x.1 trace).words ≠ [] ∧
        (Evolver.requestFor x.2 x.1 trace).words.Nodup) ∧
    (called.1 = .ok () →
      ∀ t, Later engine.recorded (running ∘ Prod.fst) text rulesPath cacheDir ⟨s.files, called.2⟩ t →
      ∀ again ⊆ inputs, ∀ trace', (trace' = true → trace = true) →
        let repeated := (Evolver.call engine.recorded t.files trace' again).result t.evolver
        repeated.1 = .ok () ∧ repeated.2.engine.2.requests = t.evolver.engine.2.requests) := by
  intro planned called
  have hstands := stands_of_reached hengine.recorded (engine.recorded.marks_true _ _ _ _) hs
  constructor
  · obtain ⟨sent, hrequests, hunplanned, hplanned, htexts⟩ :=
      hstands.exists_sent hengine trace inputs
    refine ⟨sent, hrequests, hunplanned, hplanned, fun x hx => ?_⟩
    obtain ⟨hmissing, hx⟩ := htexts x hx
    have hne : distinct x.2 ≠ [] := by
      obtain ⟨q, hq⟩ := List.exists_mem_of_ne_nil _ hmissing
      obtain ⟨word, hword, -⟩ := exists_mem_zip_of_forall₂ (mapM_eq_ok_iff.1 hx) hq
      exact List.ne_nil_of_mem (mem_distinct.2 (List.of_mem_zip hword).2)
    exact ⟨hx, rfl, hne, nodup_distinct _⟩
  · intro hcalled t ht again hagain trace' htrace
    exact hstands.repeated hengine hcalled ht hagain htrace

/-- An evolver that is opened again answers from what the first one traced and saved. -/
theorem nothing_sent_twice_reopened :
    voicingTraced.2.engine.2.requests = [.make ["ata"] none none true] ∧
    ((Evolver.call voicingRecorded voicingClosed false [.text "ata", .text "ata"]).result
      (.opened voicingClosed ⟨"changes.lsc"⟩ ⟨"cache"⟩ (none, ⟨[], 0⟩) true)).2.engine.2.requests =
        [] := by
  have hs : voicingSite.Reached voicingRecorded (id ∘ Prod.fst) {voicingText} ⟨"changes.lsc"⟩
      ⟨"cache"⟩ := reached_voicing voicingRecorded (id ∘ Prod.fst) (none, ⟨[], 0⟩) rfl
  have hok : voicingTraced.1 = .ok () := by rfl
  have ht : Later voicingRecorded (id ∘ Prod.fst) voicingText ⟨"changes.lsc"⟩ ⟨"cache"⟩
      ⟨voicingFiles, voicingTraced.2⟩
      ⟨voicingClosed, .opened voicingClosed ⟨"changes.lsc"⟩ ⟨"cache"⟩ (none, ⟨[], 0⟩) true⟩ :=
    .single (.reopen ⟨voicingFiles, voicingTraced.2⟩ (none, ⟨[], 0⟩) rfl saves_voicingTraced)
  have hrepeated := (nothing_sent_twice (Engine.wordWise_ofLaw voicing ⟨"changes.lsc"⟩) hs true
    [.text "ata"]).2 hok _ ht [.text "ata", .text "ata"] (by simp) false nofun
  dsimp only at hrepeated
  refine ⟨requests_voicingTraced, ?_⟩
  rw [hrepeated.2]
  rfl

end Site

end Etymon
