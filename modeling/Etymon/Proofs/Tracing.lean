import Etymon.Proofs.Standing

/-!
# What a trace lists

A trace tells what became of a form and of those of its parts that both caches know. The parts that
have to be evolved are always among them. A part that is only joined to its neighbour is listed as
well if it has been traced on its own, before or in the same call, and this is the only way in which a
trace depends on anything but its form.

## Main definitions

* `Engine.Reports`: an engine that reports on each word by itself; `Engine.ofReport` is one.
* `Query.parts`: a query and everything below it.
* `Traces`: what the trace of some queries holds.
* `Evolver.lists`: whether a part is listed in the traces of a call.

## Main results

* `Evolver.traces_traceOf`: the trace of a query lists the parts that both caches know.
* `Evolver.Dialogue.knows_eq_lists`: these are the parts that have to be evolved, and those that were
  traced on their own.
* `Site.trace_eq_alone_iff`: when a trace is the one that its form has alone.
-/

namespace Etymon

/-! ## Reports -/

/-- The lines that are reported on a word between two eras. -/
abbrev Report := Option Era → Option Era → String → List TraceLine

/-- A word-wise engine that reports on each traced word by itself, too. -/
structure Engine.Reports {σ : Type} (engine : Engine σ) (law : String → Law)
    (report : String → Report) (rulesPath : Path) (running : σ → Option String) : Prop extends
    engine.WordWise law rulesPath running where
  lines : ∀ {files r s text changed},
    (running s = some text ∨ running s = none ∧ files.read rulesPath = .ok text) →
    (engine.evolve files r s).1 = .ok changed → ∀ word ∈ r.traced,
      (changed.trace.filter fun line => line.word = word) = report text r.start r.stop word

/-- The lines are those that are reported on the text of a query. -/
def Reported (law : Law) (report : Report) (settings : String) (q : Query) (lines : List TraceLine) :
    Prop :=
  ∀ syllables word, settings = Evolver.settings syllables → q.naiveText law syllables = .ok word →
    lines = report q.start q.stop word

theorem Engine.Reports.marks {σ : Type} {engine : Engine σ} {law : String → Law}
    {report : String → Report} {rulesPath : Path} {running : σ → Option String}
    (h : engine.Reports law report rulesPath running) (text : String) :
    engine.Marks law running rulesPath text (Reported (law text) (report text)) := by
  constructor
  intro files r s changed t hread hs hevolve syllables q word hwindow hword htraced syllables' word'
    hsettings hword'
  rw [← Evolver.settings_injective hsettings, hword, Except.ok.injEq] at hword'
  obtain ⟨hstart, hstop⟩ := Prod.mk.injEq .. ▸ hwindow
  rw [hstart, hstop, ← hword']
  exact h.lines (hs.symm.imp_right fun hnone => ⟨hnone, hread⟩) (congrArg Prod.fst hevolve) word
    htraced

/-- The engine that follows a law and reports on each traced word. -/
def Engine.ofReport (law : String → Law) (report : String → Report) (rulesPath : Path) :
    Engine (Option String) where
  evolve files r s :=
    let (reply, running) := (ofLaw law rulesPath).evolve files r s
    (reply.map fun changed => { changed with
      trace := (distinct r.traced).flatMap (report (running.getD "") r.start r.stop) }, running)
  reset := (ofLaw law rulesPath).reset

/-- If the lines on a word name that word, the lines that name a listed word are the lines on it. -/
theorem filter_flatMap_word {lines : String → List TraceLine}
    (hname : ∀ word, ∀ line ∈ lines word, line.word = word) {words : List String} {word : String}
    (hnodup : words.Nodup) (hword : word ∈ words) :
    (words.flatMap lines).filter (fun line => line.word = word) = lines word := by
  have hothers : ∀ others : List String, word ∉ others →
      (others.flatMap lines).filter (fun line => line.word = word) = [] := by
    intro others hnot
    refine List.filter_eq_nil_iff.2 fun line hline => ?_
    obtain ⟨other, hother, hline⟩ := List.mem_flatMap.1 hline
    rw [decide_eq_true_eq, hname other line hline]
    rintro rfl
    exact hnot hother
  have hown : (lines word).filter (fun line => line.word = word) = lines word :=
    List.filter_eq_self.2 fun line hline => decide_eq_true (hname word line hline)
  obtain ⟨before, rest, rfl⟩ := List.append_of_mem hword
  obtain ⟨-, hrest, hdisjoint⟩ := List.nodup_append.1 hnodup
  have hbefore : word ∉ before := fun h => hdisjoint word h word List.mem_cons_self rfl
  rw [List.flatMap_append, List.flatMap_cons, List.filter_append, List.filter_append,
    hothers before hbefore, hown, hothers rest (List.nodup_cons.1 hrest).1, List.nil_append,
    List.append_nil]

theorem Engine.evolve_ofReport {law : String → Law} {report : String → Report} {rulesPath : Path}
    {files : FileStore} {r : Request} {s : Option String} {text : String}
    (huses : s = some text ∨ s = none ∧ files.read rulesPath = .ok text) :
    (ofReport law report rulesPath).evolve files r s =
      ((r.words.mapM (law text r.start r.stop)).map fun found =>
        ⟨found.map Prod.fst, found.map Prod.snd,
          (distinct r.traced).flatMap (report text r.start r.stop)⟩, some text) := by
  simp only [ofReport, evolve_ofLaw huses]
  cases r.words.mapM (law text r.start r.stop) <;> rfl

theorem Engine.reports_ofReport (law : String → Law) {report : String → Report} (rulesPath : Path)
    (hname : ∀ text start stop word, ∀ line ∈ report text start stop word, line.word = word) :
    (ofReport law report rulesPath).Reports law report rulesPath id := by
  refine ⟨⟨fun s => rfl, ?_, ?_, ?_⟩, ?_⟩
  · intro files r s text found huses hfound
    exact ⟨_, by rw [evolve_ofReport (s := s) huses, hfound]; rfl⟩
  · intro files r s text e huses hfail
    exact ⟨e, by rw [evolve_ofReport (s := s) huses, hfail]; rfl⟩
  · intro files r s text huses
    exact .inr (by rw [evolve_ofReport (s := s) huses]; rfl)
  · intro files r s text changed huses hevolve word hword
    rw [evolve_ofReport (s := s) huses] at hevolve
    cases hfound : r.words.mapM (law text r.start r.stop) with
    | error e =>
      rw [hfound] at hevolve
      cases hevolve
    | ok found =>
      rw [hfound] at hevolve
      cases hevolve
      exact filter_flatMap_word (hname text r.start r.stop) (nodup_distinct _) (mem_distinct.2 hword)

/-! ## Parts -/

namespace Query

/-- A query and everything below it: head first, then tail, then the query itself. -/
def parts : Query → List Query
  | leaf form start stop => [leaf form start stop]
  | node stress head tail start stop =>
    head.parts ++ tail.parts ++ [node stress head tail start stop]

/-- The parts that have to be evolved are the work below a query, and perhaps the query itself. -/
theorem mem_workBelow_of_mem_parts {q part : Query} (h : part ∈ q.parts)
    (hwork : part.needsWork = true) : part = q ∨ part ∈ q.workBelow := by
  induction q with
  | leaf form start stop => exact .inl (List.mem_singleton.1 h)
  | node stress head tail start stop ihh iht =>
    rw [mem_workBelow_node]
    simp only [parts, List.mem_append, List.mem_singleton] at h
    rcases h with (h | h) | h
    · rcases ihh h with rfl | h
      · exact .inr (.inl (.inr ⟨rfl, hwork⟩))
      · exact .inr (.inl (.inl h))
    · rcases iht h with rfl | h
      · exact .inr (.inr (.inr ⟨rfl, hwork⟩))
      · exact .inr (.inr (.inl h))
    · exact .inl h

theorem needsWork_of_mem_workBelow {q x : Query} (h : x ∈ q.workBelow) : x.needsWork = true := by
  induction q with
  | leaf form start stop => cases h
  | node stress head tail start stop ihh iht =>
    rcases mem_workBelow_node.1 h with (h | ⟨rfl, h⟩) | (h | ⟨rfl, h⟩)
    · exact ihh h
    · exact h
    · exact iht h
    · exact h

end Query

/-! ## Traces -/

/-- A trace lists queries, each with its text and with what is reported on that. -/
def Traces (law : Law) (report : Report) (syllables : Bool) (queries : List Query) (trace : Trace) :
    Prop :=
  List.Forall₂ (fun q entry => q.naiveText law syllables = .ok entry.1 ∧
    entry.2 = report q.start q.stop entry.1) queries trace

namespace Traces

variable {law : Law} {report : Report} {syllables : Bool} {queries queries' : List Query}
  {trace trace' : Trace}

theorem append (h : Traces law report syllables queries trace)
    (h' : Traces law report syllables queries' trace') :
    Traces law report syllables (queries ++ queries') (trace ++ trace') :=
  List.rel_append h h'

theorem unique (h : Traces law report syllables queries trace)
    (h' : Traces law report syllables queries trace') : trace = trace' := by
  induction h generalizing trace' with
  | nil =>
    cases h'
    rfl
  | cons hq _ ih =>
    cases h' with
    | cons hq' hrest =>
      have hword := hq.1.symm.trans hq'.1
      rw [Except.ok.injEq] at hword
      rw [ih hrest]
      congr 1
      exact Prod.ext hword (by rw [hq.2, hq'.2, hword])

/-- Of two traces, one of which lists no part that the other does not, the lists are the same when the
traces are. -/
theorem eq_iff {parts : List Query} {listed listed' : Query → Bool}
    (h : Traces law report syllables (parts.filter listed) trace)
    (h' : Traces law report syllables (parts.filter listed') trace')
    (himp : ∀ part, listed' part = true → listed part = true) :
    trace = trace' ↔ ∀ part ∈ parts, listed part = true → listed' part = true := by
  constructor
  · rintro rfl part hpart hlisted
    have hsub : List.Sublist (parts.filter listed') (parts.filter listed) :=
      List.monotone_filter_right parts himp
    have heq := hsub.eq_of_length (h'.length_eq.trans h.length_eq.symm)
    exact (List.mem_filter.1 (heq ▸ List.mem_filter.2 ⟨hpart, hlisted⟩)).2
  · intro hall
    have heq : parts.filter listed = parts.filter listed' :=
      List.filter_congr fun part hpart => Bool.eq_iff_iff.2 ⟨hall part hpart, himp part⟩
    exact h.unique (heq ▸ h')

end Traces

namespace Evolver

variable {σ : Type} {engine : Engine σ} {files : FileStore} {law : Law} {report : Report}
  {v w u : Evolver σ}

/-- Whether both caches know a query. -/
def knows (v : Evolver σ) (q : Query) : Bool :=
  v.evolved.contains q && v.traces.contains q

/-- What a trace says on a query by itself. -/
def ownTrace (v : Evolver σ) (q : Query) : Trace :=
  match v.traces.get? q, v.evolved.get? q with
  | some lines, some found => [(found.proto, lines)]
  | _, _ => []

theorem traceOf_leaf (v : Evolver σ) (form : String) (start stop : Option Era) :
    v.traceOf (.leaf form start stop) = v.ownTrace (.leaf form start stop) := by
  rw [traceOf, ownTrace]
  cases v.traces.get? (.leaf form start stop) with
  | none => rfl
  | some lines => cases v.evolved.get? (.leaf form start stop) <;> rfl

theorem traceOf_node (v : Evolver σ) (stress : Stress) (head tail : Query) (start stop : Option Era) :
    v.traceOf (.node stress head tail start stop) =
      v.traceOf head ++ v.traceOf tail ++ v.ownTrace (.node stress head tail start stop) := by
  rw [traceOf, ownTrace]
  cases v.traces.get? (.node stress head tail start stop) with
  | none => simp
  | some lines => cases v.evolved.get? (.node stress head tail start stop) <;> simp

section

variable (hv : v.Sound law) (hlines : ∀ entry ∈ v.traces.entries,
  Reported law report (settings v.syllables) entry.1 entry.2)

include hv hlines

theorem traces_ownTrace (q : Query) :
    Traces law report v.syllables ([q].filter v.knows) (v.ownTrace q) := by
  rw [ownTrace]
  cases htraces : v.traces.get? q with
  | none =>
    rw [List.filter_cons_of_neg (by simp [knows, PersistentCache.contains, htraces])]
    exact .nil
  | some lines =>
    cases hevolved : v.evolved.get? q with
    | none =>
      rw [List.filter_cons_of_neg (by simp [knows, PersistentCache.contains, hevolved])]
      exact .nil
    | some found =>
      rw [List.filter_cons_of_pos (by simp [knows, PersistentCache.contains, htraces, hevolved])]
      have htext := (Query.naive_eq_ok_iff.1 (hv.exists_naive hevolved)).1
      have hreport := hlines _ (PersistentCache.mem_of_get? htraces) _ _ rfl htext
      exact .cons ⟨htext, hreport⟩ .nil

/-- The trace of a query lists those of its parts that both caches know. -/
theorem traces_traceOf (q : Query) :
    Traces law report v.syllables (q.parts.filter v.knows) (v.traceOf q) := by
  induction q with
  | leaf form start stop =>
    rw [traceOf_leaf]
    exact traces_ownTrace hv hlines _
  | node stress head tail start stop ihh iht =>
    rw [traceOf_node, Query.parts, List.filter_append, List.filter_append]
    exact (ihh.append iht).append (traces_ownTrace hv hlines _)

end

/-- Whether a trace lists a part when the given roots are traced: it has to be evolved, or it is one of
the roots, or both caches know it already. -/
def lists (v : Evolver σ) (roots : List Query) (part : Query) : Bool :=
  part.needsWork || decide (part ∈ roots) || v.knows part

/-- Nothing is cached. -/
structure IsBlank (v : Evolver σ) : Prop where
  evolved : v.evolved.entries = []
  traces : v.traces.entries = []

theorem IsBlank.lists_eq (h : v.IsBlank) (root part : Query) :
    v.lists [root] part = (part.needsWork || decide (part = root)) := by
  simp [lists, knows, PersistentCache.contains, PersistentCache.get?, h.evolved]

theorem knows_congr (hevolved : w.evolved.entries = v.evolved.entries)
    (htraces : w.traces.entries = v.traces.entries) (q : Query) : w.knows q = v.knows q := by
  simp only [knows, PersistentCache.contains, PersistentCache.get?, hevolved, htraces]

/-- Once all is traced, the caches know those parts of a root that its trace lists. -/
theorem Dialogue.knows_eq_lists {order : RuleOrder} {forms : List Form} {p : Plan}
    {log : List Exchange} (hp : Plan.ofForms order forms = .ok p)
    (h : Dialogue engine files true p.batches w u log (.ok ())) {root part : Query}
    (hroot : root ∈ p.roots) (hpart : part ∈ root.parts) : u.knows part = w.lists p.roots part := by
  have hqueries : part ∈ p.queries ↔ ∃ root ∈ p.roots, part ∈ root.work := by
    rw [(Plan.ofForms_eq_ok_iff.1 hp).2, Plan.mem_queries_ofRoots, List.mem_flatMap]
    rfl
  by_cases hq : part ∈ p.queries
  · have hknows : u.knows part = true := by
      have hdone := isPending_eq_false_iff.1 (h.not_isPending hq)
      rw [knows, hdone.1, hdone.2 rfl, Bool.and_true]
    have hlists : part.needsWork = true ∨ part ∈ p.roots := by
      obtain ⟨other, hother, hwork⟩ := hqueries.1 hq
      have hstop := (Plan.linked_of_mem_roots hp other hother).2
      rcases (Query.mem_work_of_stop hstop).1 hwork with hwork | rfl
      · exact .inl (Query.needsWork_of_mem_workBelow hwork)
      · exact .inr hother
    rw [hknows, lists, eq_comm, Bool.or_eq_true, Bool.or_eq_true, decide_eq_true_eq]
    exact .inl hlists
  · have hnotRoot : part ∉ p.roots := fun hmem =>
      hq ((Plan.mem_queries_iff_needed hp).2 (.root hmem))
    have hnoWork : part.needsWork = false := by
      rw [← Bool.not_eq_true]
      intro hwork
      have hstop := (Plan.linked_of_mem_roots hp root hroot).2
      have hmem := (Query.mem_workBelow_of_mem_parts hpart hwork).symm
      exact hq (hqueries.2 ⟨root, hroot, (Query.mem_work_of_stop hstop).2 hmem⟩)
    have hsame := h.contains_eq_of_not_mem hq
    rw [lists, hnoWork, decide_eq_false hnotRoot, knows, hsame.1, hsame.2]
    rfl

end Evolver

/-! ## Calls -/

namespace Site

variable {σ : Type} {engine : Engine σ} {law : String → Law} {report : String → Report}
  {running : σ → Option String} {rulesPath cacheDir : Path} {text : String} {s : Site σ}

/-- What a successful call returns for each root: the root evolved the plain way, and the trace of the
parts that are listed. -/
theorem Stands.forall₂_traced (hengine : engine.Reports law report rulesPath running)
    (hs : s.Stands law running (Reported (law text) (report text)) rulesPath cacheDir text)
    {inputs : List Evolvable} {found : List (Evolved × Trace)} {u : Evolver σ}
    (h : (Evolver.trace engine s.files inputs).result s.evolver = (.ok found, u)) :
    ∃ p, Plan.ofForms (.parse text) (inputs.map (·.arranged (.parse text))) = .ok p ∧
      List.Forall₂ (fun root result => root ∈ p.roots ∧
        root.naive (law text) s.evolver.syllables = .ok result.1 ∧
        Traces (law text) (report text) s.evolver.syllables
          (root.parts.filter (s.evolver.lists p.roots)) result.2) p.roots found := by
  have hwordWise := hengine.toWordWise
  have hmarks := hengine.marks text
  have hcall : (Evolver.call engine s.files true inputs).result s.evolver = (.ok (), u) :=
    Action.result_bind_ok h
  have hafter := hs.call hwordWise hmarks true inputs
  rw [hcall] at hafter
  obtain ⟨p, w, results, hplan, hresults, rfl⟩ := Evolver.of_result_trace h
  obtain ⟨w', hw, hplan', ⟨e, -, hcall'⟩ | ⟨p', outcome, u', log, hp, hcall', hdialogue⟩⟩ :=
    hs.exists_dialogue hwordWise true inputs
  · cases hcall.symm.trans hcall'
  cases hcall.symm.trans hcall'
  rw [hplan', hp] at hplan
  cases hplan
  refine ⟨p, hp, ?_⟩
  have hsyllables : u.syllables = s.evolver.syllables := by rw [hdialogue.same, hw.syllables]
  have hsettings : u.traces.contents.settings = Evolver.settings u.syllables :=
    hafter.evolver.settings
  have hlines := hafter.evolver.traces.kept.entries
  rw [hsettings] at hlines
  rw [List.forall₂_map_right_iff, ← hsyllables]
  refine (forall₂_zip (mapM_eq_ok_iff.1 hresults)).imp ?_
  rintro _ ⟨e, root⟩ ⟨hroot, he, rfl⟩
  refine ⟨hroot, hafter.upheld.sound.exists_naive (Evolver.resultOf_eq_ok_iff.1 he), ?_⟩
  have htrace := Evolver.traces_traceOf hafter.upheld.sound hlines root
  have hlisted : root.parts.filter u.knows = root.parts.filter (s.evolver.lists p.roots) := by
    refine List.filter_congr fun part hpart => ?_
    rw [hdialogue.knows_eq_lists hp hroot hpart, Evolver.lists,
      Evolver.knows_congr hw.evolved hw.traces, Evolver.lists]
  rwa [hlisted] at htrace

/-- A call succeeds when each of its roots evolves the plain way. -/
theorem Stands.exists_traced {good : String → Query → List TraceLine → Prop}
    (hengine : engine.WordWise law rulesPath running)
    (hs : s.Stands law running good rulesPath cacheDir text) {inputs : List Evolvable} {p : Plan}
    (hp : Plan.ofForms (.parse text) (inputs.map (·.arranged (.parse text))) = .ok p)
    (hnaive : ∀ root ∈ p.roots, ∃ e, root.naive (law text) s.evolver.syllables = .ok e) :
    ∃ found u, (Evolver.trace engine s.files inputs).result s.evolver = (.ok found, u) := by
  obtain ⟨w, hw, hplan, -⟩ := hs.exists_dialogue hengine true inputs
  rw [hp] at hplan
  rw [← hw.syllables] at hnaive
  obtain ⟨hok, hcontains⟩ :=
    (Evolver.run_naive true hengine hs.read_eq hw.sound hw.tuned hp).2.2 hnaive
  obtain ⟨results, hresults⟩ := Evolver.exists_mapM_resultOf hcontains
  exact ⟨_, _, Evolver.result_trace_of_planned hplan (Prod.ext hok rfl) hresults⟩

/-- Traced alone and without anything cached, a root lists the parts that have to be evolved, and
itself. -/
theorem Stands.exists_alone (hengine : engine.Reports law report rulesPath running)
    (hs : s.Stands law running (Reported (law text) (report text)) rulesPath cacheDir text)
    (hblank : s.evolver.IsBlank) {input : Evolvable} {root : Query} {e : Evolved}
    (hroot : Query.ofForm (.parse text) (input.arranged (.parse text)) = .ok root)
    (he : root.naive (law text) s.evolver.syllables = .ok e) : ∃ alone,
    ((Evolver.trace engine s.files [input]).result s.evolver).1 = .ok [(e, alone)] ∧
      Traces (law text) (report text) s.evolver.syllables
        (root.parts.filter fun part => part.needsWork || decide (part = root)) alone := by
  have hp : Plan.ofForms (.parse text) ([input].map (·.arranged (.parse text))) =
      .ok (.ofRoots [root]) := Plan.ofForms_eq_ok_iff.2 ⟨.cons hroot .nil, rfl⟩
  obtain ⟨found, u, h⟩ := hs.exists_traced hengine.toWordWise hp (by simp [Plan.ofRoots, he])
  obtain ⟨p, hp', hfound⟩ := hs.forall₂_traced hengine h
  cases hp.symm.trans hp'
  cases hfound with
  | @cons _ result _ _ hresult hrest =>
    cases hrest
    obtain ⟨-, he', htrace⟩ := hresult
    cases he.symm.trans he'
    have hlisted : s.evolver.lists (Plan.ofRoots [root]).roots =
        fun part => part.needsWork || decide (part = root) := funext (hblank.lists_eq root)
    rw [hlisted] at htrace
    exact ⟨result.2, by rw [h], htrace⟩

def voicingEntry (word : String) : String × List TraceLine :=
  (word, [⟨"sonorization", word, word,
    String.ofList (word.toList.map fun c => if c = 't' then 'd' else c)⟩])

def voicingReport : String → Report := fun _ _ _ word => (voicingEntry word).2

/-- The engine of the voicing rule, which reports on each traced word. -/
def voicingReporter : Engine (Option String) :=
  .ofReport voicing voicingReport ⟨"changes.lsc"⟩

def voicingOpened : Evolver (Option String) :=
  .opened voicingFiles ⟨"changes.lsc"⟩ ⟨"cache"⟩ none true

/-- A word with an ending, which is joined to it as it stands. -/
def voicingJoined : Evolvable :=
  .form (.join (.leaf ⟨"ata", none⟩) ⟨.head, none⟩ (.leaf ⟨"ti", none⟩))

theorem arranged_voicingJoined (order : RuleOrder) : voicingJoined.arranged order =
    .join (.leaf ⟨"ata", none⟩) ⟨.head, none⟩ (.leaf ⟨"ti", none⟩) := by
  simp [voicingJoined, Evolvable.arranged, Form.arrange, Form.links, rebuild, splitTop]

def voicingRoot : Query :=
  .leaf "ata" none none

def voicingJoinedRoot : Query :=
  .node .head voicingRoot (.leaf "ti" none none) none none

/-- A trace depends on its form, and on nothing else but the parts that were traced on their own. A
successful call gives for each input the plainly evolved root, and lists those of its parts that have to
be evolved, are roots of the call, or are known to both caches already. Traced alone and without
anything cached, the input gives the same result, and lists only the parts that have to be evolved and
the root. So the traces are the same exactly when no other part is a root of the call or known. -/
theorem trace_eq_alone_iff (hengine : engine.Reports law report rulesPath running)
    (hs : s.Reached engine running {text} rulesPath cacheDir) {inputs : List Evolvable}
    {found : List (Evolved × Trace)} {u : Evolver σ}
    (h : (Evolver.trace engine s.files inputs).result s.evolver = (.ok found, u)) :
    ∃ p, Plan.ofForms (.parse text) (inputs.map (·.arranged (.parse text))) = .ok p ∧
    List.Forall₂ (fun input result => ∃ root,
      Query.ofForm (.parse text) (input.arranged (.parse text)) = .ok root ∧
      root.naive (law text) s.evolver.syllables = .ok result.1 ∧
      Traces (law text) (report text) s.evolver.syllables
        (root.parts.filter (s.evolver.lists p.roots)) result.2 ∧
      ∀ (cacheDir' : Path) (t : Site σ), t.Reached engine running {text} rulesPath cacheDir' →
        t.evolver.IsBlank → t.evolver.syllables = s.evolver.syllables → ∃ alone,
          ((Evolver.trace engine t.files [input]).result t.evolver).1 = .ok [(result.1, alone)] ∧
          Traces (law text) (report text) s.evolver.syllables
            (root.parts.filter fun part => part.needsWork || decide (part = root)) alone ∧
          (result.2 = alone ↔ ∀ part ∈ root.parts, part.needsWork = false → part ≠ root →
            part ∉ p.roots ∧ s.evolver.knows part = false)) inputs found := by
  have hmarks := hengine.marks text
  obtain ⟨p, hp, hfound⟩ := (stands_of_reached hengine.toWordWise hmarks hs).forall₂_traced hengine h
  refine ⟨p, hp, ((Evolver.forall₂_roots_iff hp).1 hfound).imp ?_⟩
  rintro input result ⟨root, hroot, hmem, he, htrace⟩
  refine ⟨root, hroot, he, htrace, fun cacheDir' t ht hblank hsyllables => ?_⟩
  obtain ⟨alone, hresult, halone⟩ := (stands_of_reached hengine.toWordWise hmarks ht).exists_alone
    hengine hblank hroot (hsyllables ▸ he)
  rw [hsyllables] at halone
  refine ⟨alone, hresult, halone, (htrace.eq_iff halone ?_).trans ?_⟩
  · intro part hlisted
    simp only [Evolver.lists, Bool.or_eq_true, decide_eq_true_eq] at hlisted ⊢
    rcases hlisted with hwork | rfl
    · exact .inl (.inl hwork)
    · exact .inl (.inr hmem)
  · refine forall₂_congr fun part _ => ?_
    simp only [Evolver.lists, Bool.or_eq_true, decide_eq_true_eq, ← Bool.not_eq_true]
    tauto

/-- A root of the call that is joined to another one is listed with that one, but not when that one is
traced alone. -/
theorem trace_eq_alone_iff_joined : ∃ alone,
    ((Evolver.trace voicingReporter voicingFiles [.text "ata", voicingJoined]).result
      voicingOpened).1 = .ok [(⟨"ata", "ada", "ada"⟩, [voicingEntry "ata"]),
        (⟨"ata.ti", "ada.di", "ada.di"⟩, [voicingEntry "ata", voicingEntry "ata.ti"])] ∧
    ((Evolver.trace voicingReporter voicingFiles [voicingJoined]).result voicingOpened).1 =
      .ok [(⟨"ata.ti", "ada.di", "ada.di"⟩, alone)] ∧
    [voicingEntry "ata", voicingEntry "ata.ti"] ≠ alone := by
  have hengine : voicingReporter.Reports voicing voicingReport ⟨"changes.lsc"⟩ id :=
    Engine.reports_ofReport voicing ⟨"changes.lsc"⟩ fun _ _ _ word line hline => by
      rw [List.mem_singleton.1 hline]
  have hs : Reached voicingReporter id {voicingText} ⟨"changes.lsc"⟩ ⟨"cache"⟩
      ⟨voicingFiles, voicingOpened⟩ := reached_voicing voicingReporter id none rfl
  have hp : Plan.ofForms (.parse voicingText)
      ([.text "ata", voicingJoined].map (·.arranged (.parse voicingText))) =
      .ok (.ofRoots [voicingRoot, voicingJoinedRoot]) := by
    rw [List.map_cons, List.map_singleton, arranged_voicingJoined]
    exact Plan.ofForms_eq_ok_iff.2 ⟨.cons rfl (.cons rfl .nil), rfl⟩
  obtain ⟨found, u, h⟩ := (stands_of_reached hengine.toWordWise (hengine.marks voicingText) hs)
    |>.exists_traced hengine.toWordWise hp (by
      rintro root (_ | ⟨_, _ | ⟨_, ⟨⟩⟩⟩)
      · exact ⟨⟨"ata", "ada", "ada"⟩, rfl⟩
      · exact ⟨⟨"ata.ti", "ada.di", "ada.di"⟩, rfl⟩)
  obtain ⟨p, hp', hresults⟩ := trace_eq_alone_iff hengine hs h
  cases hp.symm.trans hp'
  obtain _ | @⟨_, own, _, _, ⟨root, hroot, he, htrace, -⟩, hrest⟩ := hresults
  cases hroot.symm.trans (show _ = .ok voicingRoot from rfl)
  obtain _ | @⟨_, joined, _, _, ⟨root, hroot, he', htrace', hall⟩, hnil⟩ := hrest
  rw [arranged_voicingJoined] at hroot
  cases hroot.symm.trans (show _ = .ok voicingJoinedRoot from rfl)
  cases hnil
  have hown : own = (⟨"ata", "ada", "ada"⟩, [voicingEntry "ata"]) :=
    Prod.ext (Except.ok.inj (he.symm.trans rfl)) (htrace.unique (.cons ⟨rfl, rfl⟩ .nil))
  have hboth : joined =
      (⟨"ata.ti", "ada.di", "ada.di"⟩, [voicingEntry "ata", voicingEntry "ata.ti"]) :=
    Prod.ext (Except.ok.inj (he'.symm.trans rfl))
      (htrace'.unique (.cons ⟨rfl, rfl⟩ (.cons ⟨rfl, rfl⟩ .nil)))
  subst hown hboth
  obtain ⟨alone, halone, -, hiff⟩ :=
    hall ⟨"cache"⟩ ⟨voicingFiles, voicingOpened⟩ hs ⟨rfl, rfl⟩ rfl
  refine ⟨alone, by rw [h], halone, fun heq => ?_⟩
  have hunlisted := hiff.1 heq voicingRoot (by simp [voicingJoinedRoot, voicingRoot, Query.parts])
    rfl nofun
  exact hunlisted.1 List.mem_cons_self

end Site

end Etymon
