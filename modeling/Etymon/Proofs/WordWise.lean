import Etymon.Proofs.Exchanges
import Etymon.Proofs.Naive

/-!
# Engines that evolve word by word

An engine that treats each word of a request by itself follows a law, and batches over a cache of
plainly evolved queries then bring nothing but plainly evolved queries. They succeed exactly when the
plain way does.

## Main definitions

* `Engine.WordWise`: an engine that follows the law of the rule file it was started with.
* `Evolver.Sound`: the cache holds plainly evolved queries.
* `Evolver.Tuned`: the engine does not run with another text.

## Main results

* `Evolver.Runs.sound`: batches keep a cache sound.
* `Evolver.Runs.contains_of_naive`: batches succeed when the plain way does.
* `Evolver.evolve_eq_ok_iff`: a call gives what the plain way gives.
-/

namespace Etymon

variable {σ : Type}

/-- The law depends on the text of the rule file. A running engine keeps to the text it was started
with, which `running` tells; a request starts one that is not running. It answers word by word, and
fails as a whole if one of its words fails. -/
structure Engine.WordWise (engine : Engine σ) (law : String → Law) (rulesPath : Path)
    (running : σ → Option String) : Prop where
  reset : ∀ s, running (engine.reset s) = none
  answer : ∀ {files r s text found},
    (running s = some text ∨ running s = none ∧ files.read rulesPath = .ok text) →
    r.words.mapM (law text r.start r.stop) = .ok found →
    ∃ trace, (engine.evolve files r s).1 = .ok ⟨found.map Prod.fst, found.map Prod.snd, trace⟩
  refusal : ∀ {files r s text e},
    (running s = some text ∨ running s = none ∧ files.read rulesPath = .ok text) →
    r.words.mapM (law text r.start r.stop) = .error e → ∃ e', (engine.evolve files r s).1 = .error e'
  keeps : ∀ {files r s text},
    (running s = some text ∨ running s = none ∧ files.read rulesPath = .ok text) →
    running (engine.evolve files r s).2 = none ∨ running (engine.evolve files r s).2 = some text

/-- The engine that is nothing but a law; its state is the text it was started with. -/
def Engine.ofLaw (law : String → Law) (rulesPath : Path) : Engine (Option String) where
  evolve files r running :=
    match running.map Except.ok |>.getD (files.read rulesPath) with
    | .error fault => (.error (.io rulesPath fault), none)
    | .ok text =>
      ((r.words.mapM (law text r.start r.stop)).map fun found =>
        ⟨found.map Prod.fst, found.map Prod.snd, []⟩, some text)
  reset _ := none

theorem Engine.evolve_ofLaw {law : String → Law} {rulesPath : Path} {files : FileStore} {r : Request}
    {s : Option String} {text : String}
    (huses : s = some text ∨ s = none ∧ files.read rulesPath = .ok text) :
    (ofLaw law rulesPath).evolve files r s =
      ((r.words.mapM (law text r.start r.stop)).map fun found =>
        ⟨found.map Prod.fst, found.map Prod.snd, []⟩, some text) := by
  rcases huses with rfl | ⟨rfl, hread⟩
  · rfl
  · simp [ofLaw, hread]

theorem Engine.wordWise_ofLaw (law : String → Law) (rulesPath : Path) :
    (ofLaw law rulesPath).WordWise law rulesPath id := by
  refine ⟨fun s => rfl, ?_, ?_, ?_⟩
  · intro files r s text found huses hfound
    exact ⟨[], by rw [evolve_ofLaw (s := s) huses, hfound]; rfl⟩
  · intro files r s text e huses hfail
    exact ⟨e, by rw [evolve_ofLaw (s := s) huses, hfail]; rfl⟩
  · intro files r s text huses
    exact .inr (by rw [evolve_ofLaw (s := s) huses]; rfl)

/-- A word-wise engine that does not run with another text than the rule file's answers each word, and
goes on not to. -/
theorem Engine.WordWise.counts {engine : Engine σ} {law : String → Law} {rulesPath : Path}
    {running : σ → Option String} (hengine : engine.WordWise law rulesPath running)
    {files : FileStore} {text : String} (hread : files.read rulesPath = .ok text) :
    engine.Counts files fun s => running s = none ∨ running s = some text := by
  have huses : ∀ {s : σ}, (running s = none ∨ running s = some text) →
      running s = some text ∨ running s = none ∧ files.read rulesPath = .ok text :=
    fun hs => hs.symm.imp_right fun hnone => ⟨hnone, hread⟩
  constructor
  · intro r s changed t hs h
    cases hlaw : r.words.mapM (law text r.start r.stop) with
    | error e =>
      obtain ⟨e', he'⟩ := hengine.refusal (huses hs) hlaw
      rw [h] at he'
      cases he'
    | ok found =>
      obtain ⟨lines, hchanged⟩ := hengine.answer (huses hs) hlaw
      rw [h, Except.ok.injEq] at hchanged
      subst hchanged
      have hlen := (mapM_eq_ok_iff.1 hlaw).length_eq
      simp [hlen]
  · intro r s reply t hs h
    have hkeeps := hengine.keeps (r := r) (huses hs)
    rwa [h] at hkeeps

/-! ## Sound caches -/

/-- Entries that are all evolved the plain way. -/
def SoundEntries (law : Law) (syllables : Bool) (entries : List (Query × Evolved)) : Prop :=
  ∀ entry ∈ entries, entry.1.naive law syllables = .ok entry.2

/-- A cache without its entries. -/
def PersistentCache.emptied {κ ν : Type} (c : PersistentCache κ ν) : PersistentCache κ ν :=
  { c with entries := [], unsaved := false }

namespace Evolver

variable {engine : Engine σ} {files : FileStore} {trace : Bool} {law : String → Law}
  {rulesPath : Path} {running : σ → Option String} {text : String} {b : Batch}
  {batches : List Batch} {v w : Evolver σ} {outcome : Except Error Unit}

def Sound (law : Law) (v : Evolver σ) : Prop :=
  SoundEntries law v.syllables v.evolved.entries

/-- The engine runs with the given text if it runs. -/
def Tuned (running : σ → Option String) (text : String) (v : Evolver σ) : Prop :=
  running v.engine = none ∨ running v.engine = some text

/-- A tuned engine answers a request by the law of the text. -/
theorem Tuned.uses (h : v.Tuned running text) (hfile : files.read rulesPath = .ok text) :
    running v.engine = some text ∨ running v.engine = none ∧ files.read rulesPath = .ok text :=
  h.symm.imp_right fun hnone => ⟨hnone, hfile⟩

/-- What batches leave as it is: all but the engine and the entries. -/
def settled (v : Evolver σ) :=
  (v.rulesPath, v.rules, v.rulesHash, v.syllables, v.evolved.emptied, v.traces.emptied)

theorem settled_stored {r : Request} {changed : Changed} {answered : List (Query × String)} :
    (stored r changed trace v answered).settled = v.settled := by
  induction answered generalizing v with
  | nil => rfl
  | cons first rest ih =>
    rw [stored, List.foldl_cons, ← stored, ih, store]
    split
    · rfl
    · split <;> rfl

theorem engine_stored {r : Request} {changed : Changed} {answered : List (Query × String)} :
    (stored r changed trace v answered).engine = v.engine := by
  induction answered generalizing v with
  | nil => rfl
  | cons first rest ih =>
    rw [stored, List.foldl_cons, ← stored, ih, store]
    split
    · rfl
    · split <;> rfl

theorem BatchRun.settled_eq (h : BatchRun engine files trace b v outcome w) :
    w.settled = v.settled := by
  cases h with
  | cached => rfl
  | unassembled => rfl
  | refused => rfl
  | answered => exact settled_stored

theorem syllables_eq_of_settled (h : w.settled = v.settled) : w.syllables = v.syllables := by
  simp only [settled, Prod.mk.injEq] at h
  exact h.2.2.2.1

/-! ### One batch -/

theorem Sound.exists_naive {law : Law} (hv : v.Sound law) {q : Query} {e : Evolved}
    (h : v.evolved.get? q = some e) : q.naive law v.syllables = .ok e :=
  hv (q, e) (PersistentCache.mem_of_get? h)

/-- A text that is assembled from a sound cache is the plain text. -/
theorem Sound.naiveText_of_wordOf {law : Law} (hv : v.Sound law) {q : Query} {word : String}
    (h : v.wordOf q = .ok word) : q.naiveText law v.syllables = .ok word := by
  refine assemble_eq_naiveText (fun d _ phonetic hd => ?_) h
  rw [Option.map_eq_some_iff] at hd
  obtain ⟨e, he, rfl⟩ := hd
  exact ⟨e, hv.exists_naive he, rfl⟩

/-- The answer for a word is what the law makes of it. -/
theorem law_of_answerFor? {law : Law} {r : Request} {found : List (String × String)}
    {lines : List TraceLine} (hfound : r.words.mapM (law r.start r.stop) = .ok found)
    {word modern phonetic : String}
    (h : answerFor? r ⟨found.map Prod.fst, found.map Prod.snd, lines⟩ word =
      some (modern, phonetic)) : law r.start r.stop word = .ok (modern, phonetic) := by
  rw [mapM_eq_ok_iff, List.forall₂_iff_zip] at hfound
  rw [answerFor?] at h
  dsimp only at h
  have hzip : (found.map Prod.fst).zip (found.map Prod.snd) = found := by
    rw [← List.unzip_fst, ← List.unzip_snd, List.zip_unzip]
  rw [hzip] at h
  exact hfound.2 (mem_of_lookup_eq_some h)

/-- An engine that answers a request answers it by the law. -/
theorem law_of_answered (hengine : engine.WordWise law rulesPath running)
    (hfile : files.read rulesPath = .ok text) (htuned : v.Tuned running text) {r : Request}
    {changed : Changed} {s : σ} (hevolve : engine.evolve files r v.engine = (.ok changed, s))
    {word modern phonetic : String} (h : answerFor? r changed word = some (modern, phonetic)) :
    law text r.start r.stop word = .ok (modern, phonetic) := by
  have huses := htuned.uses hfile
  cases hlaw : r.words.mapM (law text r.start r.stop) with
  | error e =>
    obtain ⟨e', he'⟩ := hengine.refusal huses hlaw
    rw [hevolve] at he'
    cases he'
  | ok found =>
    obtain ⟨lines, hchanged⟩ := hengine.answer huses hlaw
    rw [hevolve, Except.ok.injEq] at hchanged
    subst hchanged
    exact law_of_answerFor? hlaw h

/-- A batch keeps the engine tuned, also when it fails. -/
theorem BatchRun.tuned (hengine : engine.WordWise law rulesPath running)
    (hfile : files.read rulesPath = .ok text) (htuned : v.Tuned running text)
    (h : BatchRun engine files trace b v outcome w) : w.Tuned running text := by
  have huses := htuned.uses hfile
  cases h with
  | cached => exact htuned
  | unassembled => exact htuned
  | @refused words e s hsome hwords hevolve =>
    have hkeeps := hengine.keeps (r := requestFor words b trace) huses
    rwa [hevolve] at hkeeps
  | @answered words changed s hsome hwords hevolve =>
    have hkeeps := hengine.keeps (r := requestFor words b trace) huses
    rw [hevolve] at hkeeps
    rwa [Tuned, engine_stored]

/-- A batch keeps the cache sound and the engine tuned, also when it fails. -/
theorem BatchRun.sound (hengine : engine.WordWise law rulesPath running)
    (hfile : files.read rulesPath = .ok text) (hwindow : ∀ q ∈ b.queries, q.window = b.window)
    (hv : v.Sound (law text)) (htuned : v.Tuned running text)
    (h : BatchRun engine files trace b v outcome w) :
    w.Sound (law text) ∧ w.Tuned running text := by
  refine ⟨?_, h.tuned hengine hfile htuned⟩
  cases h with
  | cached => exact hv
  | unassembled => exact hv
  | refused => exact hv
  | @answered words changed s hsome hwords hevolve =>
    intro entry hentry
    rw [syllables_eq_of_settled settled_stored]
    rcases mem_evolved_stored hentry with hentry | ⟨q, word, modern, phonetic, hmem, hanswer, rfl⟩
    · exact hv entry hentry
    · obtain ⟨hq, -⟩ := List.of_mem_zip hmem
      have hword := (List.forall₂_iff_zip.1 (mapM_eq_ok_iff.1 hwords)).2 hmem
      have hwin : q.start = b.start ∧ q.stop = b.stop :=
        Prod.ext_iff.1 (hwindow q (List.mem_filter.1 hq).1)
      refine Query.naive_eq_ok_iff.2 ⟨hv.naiveText_of_wordOf hword, ?_⟩
      rw [hwin.1, hwin.2]
      exact law_of_answered hengine hfile htuned hevolve hanswer

/-- A batch whose queries evolve the plain way succeeds once what they need is cached. -/
theorem BatchRun.ne_error (hengine : engine.WordWise law rulesPath running)
    (hfile : files.read rulesPath = .ok text) (hwindow : ∀ q ∈ b.queries, q.window = b.window)
    (hv : v.Sound (law text)) (htuned : v.Tuned running text)
    (hfound : ∀ q ∈ b.queries, ∀ d ∈ q.dependencies, v.evolved.contains d = true)
    (hnaive : ∀ q ∈ b.queries, ∃ found, q.naive (law text) v.syllables = .ok found) {e : Error} :
    ¬ BatchRun engine files trace b v (.error e) w := by
  intro h
  cases h with
  | unassembled hwords =>
    obtain ⟨q, hq, hword⟩ := eq_error_of_mapM hwords
    obtain ⟨word, hword'⟩ := exists_wordOf_eq_ok (hfound q (List.mem_filter.1 hq).1)
    rw [hword'] at hword
    cases hword
  | @refused words _ s hsome hwords hevolve =>
    have huses := htuned.uses hfile
    have hlaw : ∀ word ∈ (requestFor words b trace).words,
        ∃ found, law text b.start b.stop word = .ok found := by
      intro word hword
      obtain ⟨q, hq, hqword⟩ := exists_of_mem_forall₂ (mapM_eq_ok_iff.1 hwords)
        (mem_distinct.1 hword)
      have hq := (List.mem_filter.1 hq).1
      obtain ⟨found, hfound⟩ := hnaive q hq
      obtain ⟨htext, hresult⟩ := Query.naive_eq_ok_iff.1 hfound
      have hwin : q.start = b.start ∧ q.stop = b.stop := Prod.ext_iff.1 (hwindow q hq)
      rw [hv.naiveText_of_wordOf hqword, Except.ok.injEq] at htext
      exact ⟨_, by rw [← hwin.1, ← hwin.2, htext]; exact hresult⟩
    obtain ⟨found, hall⟩ := exists_mapM_eq_ok_iff.2 hlaw
    obtain ⟨lines, hchanged⟩ := hengine.answer (r := requestFor words b trace) huses hall
    rw [hevolve] at hchanged
    cases hchanged

/-! ### Batch after batch -/

theorem Runs.settled_eq (h : Runs engine files trace batches v outcome w) :
    w.settled = v.settled := by
  induction h with
  | done => rfl
  | next hb _ ih => rw [ih, hb.settled_eq]
  | stop hb => exact hb.settled_eq

theorem Runs.tuned (hengine : engine.WordWise law rulesPath running)
    (hfile : files.read rulesPath = .ok text) (htuned : v.Tuned running text)
    (h : Runs engine files trace batches v outcome w) : w.Tuned running text := by
  induction h with
  | done => exact htuned
  | next hb _ ih => exact ih (hb.tuned hengine hfile htuned)
  | stop hb => exact hb.tuned hengine hfile htuned

theorem Runs.sound (hengine : engine.WordWise law rulesPath running)
    (hfile : files.read rulesPath = .ok text)
    (hwindow : ∀ b ∈ batches, ∀ q ∈ b.queries, q.window = b.window)
    (hv : v.Sound (law text)) (htuned : v.Tuned running text)
    (h : Runs engine files trace batches v outcome w) :
    w.Sound (law text) ∧ w.Tuned running text := by
  induction h with
  | done => exact ⟨hv, htuned⟩
  | next hb _ ih =>
    rw [List.forall_mem_cons] at hwindow
    obtain ⟨hv, htuned⟩ := hb.sound hengine hfile hwindow.1 hv htuned
    exact ih hwindow.2 hv htuned
  | stop hb =>
    rw [List.forall_mem_cons] at hwindow
    exact hb.sound hengine hfile hwindow.1 hv htuned

/-- Batches that find what they need, and whose queries evolve the plain way, succeed and leave an
entry for each query. -/
theorem Runs.contains_of_naive (hengine : engine.WordWise law rulesPath running)
    (hfile : files.read rulesPath = .ok text)
    (hwindow : ∀ b ∈ batches, ∀ q ∈ b.queries, q.window = b.window)
    (hv : v.Sound (law text)) (htuned : v.Tuned running text) (done : List Query)
    (hsupplied : Supplied done batches) (hdone : ∀ q ∈ done, v.evolved.contains q = true)
    (hnaive : ∀ q ∈ batches.flatMap Batch.queries,
      ∃ found, q.naive (law text) v.syllables = .ok found)
    (h : Runs engine files trace batches v outcome w) :
    outcome = .ok () ∧ ∀ q, q ∈ done ∨ q ∈ batches.flatMap Batch.queries →
      w.evolved.contains q = true := by
  induction h generalizing done with
  | done v => exact ⟨rfl, fun q hq => hdone q (by simpa using hq)⟩
  | @next b rest v w u outcome hb hrest ih =>
    obtain ⟨hfound, hsupplied⟩ := hsupplied
    rw [List.forall_mem_cons] at hwindow
    rw [List.flatMap_cons] at hnaive
    have hdone' : ∀ q ∈ done ++ b.queries, w.evolved.contains q = true := by
      intro q hq
      rcases List.mem_append.1 hq with hq | hq
      · exact hb.contains (hdone q hq)
      · exact hb.contains_queries (fun _ _ _ => (hengine.counts hfile).counts htuned) hq
    obtain ⟨hw, htuned'⟩ := hb.sound hengine hfile hwindow.1 hv htuned
    have hnaive' : ∀ q ∈ rest.flatMap Batch.queries,
        ∃ found, q.naive (law text) w.syllables = .ok found := by
      intro q hq
      rw [syllables_eq_of_settled hb.settled_eq]
      exact hnaive q (List.mem_append_right _ hq)
    obtain ⟨hout, hall⟩ := ih hwindow.2 hw htuned' _ hsupplied hdone' hnaive'
    exact ⟨hout, fun q hq => hall q (by simpa [or_assoc] using hq)⟩
  | stop hb =>
    rw [List.forall_mem_cons] at hwindow
    refine absurd hb (BatchRun.ne_error hengine hfile hwindow.1 hv htuned ?_ ?_)
    · exact fun q hq d hd => hdone d (hsupplied.1 q hq d hd)
    · exact fun q hq => hnaive q (by simp [hq])

/-! ## Calls -/

theorem exists_naive_of_needed {law : Law} {syllables : Bool} {roots : List Query}
    (hroots : ∀ root ∈ roots, ∃ e, root.naive law syllables = .ok e) {q : Query}
    (hq : Needed roots q) : ∃ e, q.naive law syllables = .ok e := by
  induction hq with
  | root hq => exact hroots _ hq
  | step _ hd ih =>
    obtain ⟨e, he⟩ := ih
    exact Query.exists_naive_of_mem_dependencies (Query.naive_eq_ok_iff.1 he).1
      (Query.needs_iff.1 hd)

theorem resultOf_eq_ok_iff {q : Query} {e : Evolved} :
    v.resultOf q = .ok e ↔ v.evolved.get? q = some e := by
  rw [resultOf]
  split
  · next found hfound => rw [hfound, Except.ok.injEq, Option.some.injEq]
  · next hfound => simp [hfound]

/-- Running a plan over a sound cache succeeds when every root evolves the plain way, and the results
are read back from the cache. -/
theorem run_naive (trace : Bool) (hengine : engine.WordWise law rulesPath running)
    (hfile : files.read rulesPath = .ok text) (hv : v.Sound (law text))
    (htuned : v.Tuned running text) {order : RuleOrder} {forms : List Form} {p : Plan}
    (hp : Plan.ofForms order forms = .ok p) :
    ((run engine files trace p).result v).2.Sound (law text) ∧
      ((run engine files trace p).result v).2.Tuned running text ∧
      ((∀ root ∈ p.roots, ∃ e, root.naive (law text) v.syllables = .ok e) →
        ((run engine files trace p).result v).1 = .ok () ∧ ∀ root ∈ p.roots,
          ((run engine files trace p).result v).2.evolved.contains root = true) := by
  have hruns := runs_run engine files trace p v
  have hwindow := Plan.window_of_ofForms hp
  obtain ⟨hw, htuned'⟩ := hruns.sound hengine hfile hwindow hv htuned
  refine ⟨hw, htuned', fun hroots => ?_⟩
  have hneeded := (Plan.runnable_of_ofForms hp).needed
  obtain ⟨hout, hall⟩ := hruns.contains_of_naive hengine hfile hwindow hv htuned []
    (Plan.supplied_batches hp) (fun q hq => by cases hq)
    fun q hq => exists_naive_of_needed hroots ((hneeded q).1 hq)
  exact ⟨hout, fun root hroot => hall root (.inr ((hneeded root).2 (.root hroot)))⟩

/-- What is read back from a sound cache was evolved the plain way. -/
theorem mapM_resultOf_iff {law : Law} (hv : v.Sound law) {roots : List Query} {es : List Evolved}
    (hroots : (∀ root ∈ roots, ∃ e, root.naive law v.syllables = .ok e) →
      ∀ root ∈ roots, v.evolved.contains root = true) :
    roots.mapM v.resultOf = .ok es ↔
      List.Forall₂ (fun root e => root.naive law v.syllables = .ok e) roots es := by
  rw [mapM_eq_ok_iff]
  constructor
  · intro h
    exact h.imp fun root e he => hv.exists_naive (resultOf_eq_ok_iff.1 he)
  · intro h
    have hcontains := hroots fun root hroot => by
      obtain ⟨e, -, he⟩ := exists_mem_zip_of_forall₂ h hroot
      exact ⟨e, he⟩
    rw [List.forall₂_iff_zip] at h ⊢
    refine ⟨h.1, fun {root e} hmem => resultOf_eq_ok_iff.2 ?_⟩
    have hfound := hcontains root (List.of_mem_zip hmem).1
    rw [PersistentCache.contains, Option.isSome_iff_exists] at hfound
    obtain ⟨found, hfound⟩ := hfound
    have heq := hv.exists_naive hfound
    rw [h.2 hmem, Except.ok.injEq] at heq
    rw [hfound, heq]

/-- A call succeeds when its plan does, the plan's batches do, and every root has an entry then. -/
theorem evolve_eq_ok_iff_exists {order : RuleOrder} {inputs : List Evolvable} {es : List Evolved}
    (hrefresh : (refresh engine files).result v = (.ok order, w)) :
    ((evolve engine files inputs).result v).1 = .ok es ↔
      ∃ p u, Plan.ofForms order (inputs.map (·.arranged order)) = .ok p ∧
        (run engine files false p).result w = (.ok (), u) ∧ p.roots.mapM u.resultOf = .ok es := by
  rw [evolve, Action.result_bind, plan, Action.result_bind_ok hrefresh, Action.result_ofExcept]
  cases hp : Plan.ofForms order (inputs.map (·.arranged order)) with
  | error e => simp
  | ok p =>
    dsimp only
    rw [Action.result_bind]
    cases hrun : (run engine files false p).result w with
    | mk outcome u =>
      cases outcome with
      | error e =>
        refine ⟨fun h => (by cases h), ?_⟩
        rintro ⟨p', u', hp', hrun', -⟩
        rw [Except.ok.injEq] at hp'
        rw [← hp', hrun] at hrun'
        cases hrun'
      | ok _ =>
        refine ⟨fun h => ⟨p, u, rfl, hrun, h⟩, ?_⟩
        rintro ⟨p', u', hp', hrun', h⟩
        rw [Except.ok.injEq] at hp'
        subst hp'
        rw [hrun, Prod.mk.injEq] at hrun'
        obtain ⟨-, rfl⟩ := hrun'
        exact h

/-- The roots of a plan are the queries of the inputs. -/
theorem forall₂_roots_iff {order : RuleOrder} {inputs : List Evolvable} {p : Plan}
    (hp : Plan.ofForms order (inputs.map (·.arranged order)) = .ok p) {β : Type}
    {S : Query → β → Prop} {es : List β} : List.Forall₂ S p.roots es ↔ List.Forall₂ (fun input e => ∃ q,
      Query.ofForm order (input.arranged order) = .ok q ∧ S q e) inputs es := by
  refine forall₂_iff_forall₂_exists (List.forall₂_map_left_iff.1 (Plan.ofForms_eq_ok_iff.1 hp).1) ?_
  intro input q q' hq hq'
  rwa [hq, Except.ok.injEq] at hq'

/-- A list of inputs is evolved exactly when each of them can be queried and evolves the plain way. -/
theorem evolve_eq_ok_iff (hengine : engine.WordWise law rulesPath running)
    (hfile : files.read rulesPath = .ok text) {order : RuleOrder} {inputs : List Evolvable}
    (hrefresh : (refresh engine files).result v = (.ok order, w)) (hw : w.Sound (law text))
    (htuned : w.Tuned running text) {es : List Evolved} :
    ((evolve engine files inputs).result v).1 = .ok es ↔
      List.Forall₂ (fun input e => ∃ q, Query.ofForm order (input.arranged order) = .ok q ∧
        q.naive (law text) w.syllables = .ok e) inputs es := by
  rw [evolve_eq_ok_iff_exists hrefresh]
  constructor
  · rintro ⟨p, u, hp, hrun, hresults⟩
    obtain ⟨hu, -, hall⟩ := run_naive false hengine hfile hw htuned hp
    have hsettled := (runs_run engine files false p w).settled_eq
    rw [hrun] at hu hall hsettled
    have hsyllables := syllables_eq_of_settled hsettled
    rw [← hsyllables] at hall ⊢
    rw [← forall₂_roots_iff hp]
    exact (mapM_resultOf_iff hu fun hroots => (hall hroots).2).1 hresults
  · intro h
    obtain ⟨roots, hroots⟩ := exists_forall₂_of_forall₂_exists h
    have hp : Plan.ofForms order (inputs.map (·.arranged order)) = .ok (.ofRoots roots) :=
      Plan.ofForms_eq_ok_iff.2 ⟨List.forall₂_map_left_iff.2 hroots, rfl⟩
    rw [← forall₂_roots_iff hp] at h
    obtain ⟨hu, -, hall⟩ := run_naive false hengine hfile hw htuned hp
    obtain ⟨hok, hcontains⟩ := hall fun root hroot => by
      obtain ⟨e, -, he⟩ := exists_mem_zip_of_forall₂ h hroot
      exact ⟨e, he⟩
    have hsyllables := syllables_eq_of_settled
      (runs_run engine files false (.ofRoots roots) w).settled_eq
    refine ⟨_, _, hp, Prod.ext hok rfl, (mapM_resultOf_iff hu fun _ => hcontains).2 ?_⟩
    rw [hsyllables]
    exact h

/-- A call answers from the cache what the cache has. -/
theorem eq_of_evolve_eq_ok {order : RuleOrder} {inputs : List Evolvable} {es : List Evolved}
    (hrefresh : (refresh engine files).result v = (.ok order, w))
    (h : ((evolve engine files inputs).result v).1 = .ok es) :
    List.Forall₂ (fun input e => ∀ q, Query.ofForm order (input.arranged order) = .ok q →
      ∀ known, w.evolved.get? q = some known → e = known) inputs es := by
  obtain ⟨p, u, hp, hrun, hresults⟩ := (evolve_eq_ok_iff_exists hrefresh).1 h
  have hruns := runs_run engine files false p w
  rw [hrun] at hruns
  rw [mapM_eq_ok_iff] at hresults
  refine ((forall₂_roots_iff hp).1 hresults).imp ?_
  rintro input e ⟨root, hroot, he⟩ q hq known hknown
  rw [hroot, Except.ok.injEq] at hq
  subst hq
  rw [resultOf_eq_ok_iff, hruns.get?_eq hknown, Option.some.injEq] at he
  exact he.symm

end Evolver

end Etymon
