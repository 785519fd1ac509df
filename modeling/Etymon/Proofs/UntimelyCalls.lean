import Etymon.Proofs.DatedCaches
import Etymon.Proofs.Singly

/-!
# Untimely calls

The first call of an evolver may find the rule file with another text but the time that its cache was
stamped with. Such a call keeps what was cached under the old text and adds to it under the present one,
and the stamps go on being those of the old text. Nothing in the cache tells its entries apart then, and
saving it takes them to later sessions.

This lasts until an evolver starts afresh. Histories may have such calls here, and keep track of whether
the cache of the evolver and the file of the evolved forms can be relied on.

## Main definitions

* `Evolver.StartsAfresh`: the next call drops what is cached.
* `Evolver.CallsWell`, `Evolver.SavesWell`, `Evolver.OpensWell`: what can be relied on after a step.
* `Site.Worked`: what a history of calls at any time leads to.

## Main results

* `Evolver.Placed.evolve_onto`: a call that does not start afresh builds on what is cached.
* `Evolver.Dated.evolve_untimely`: what an untimely call leaves.
* `Site.evolve_of_worked`: after any history, a call that starts afresh evolves the plain way, and so does
  one that finds a cache that can be relied on and times that do not mislead.
-/

namespace Etymon

variable {σ : Type} {engine : Engine σ} {laws : String → Law} {running : σ → Option String}
  {texts : Set String} {files : FileStore}

namespace Evolver

variable {rulesPath cacheDir : Path} {text : String} {held stored : Prop} {v : Evolver σ}

/-! ## Calls -/

/-- The next call drops what is cached. If it is the first one, the stamps do not let the rule file pass;
if it is a later one, the file has another checksum than at the last call. -/
structure StartsAfresh (files : FileStore) (v : Evolver σ) : Prop where
  first : v.rulesHash = none → ¬ v.evolved.Passes files
  later : ∀ hash, v.rulesHash = some hash → files.checksum v.rulesPath ≠ .ok hash

/-- The next call answers for the present text: it starts afresh, or the cache can be relied on and times
do not mislead. -/
def CallsWell (files : FileStore) (held : Prop) (v : Evolver σ) : Prop :=
  v.StartsAfresh files ∨ held ∧ v.Timely files

/-- The file of the evolved forms can be relied on after saving: what is written is as good as the cache,
and what is not written as good as before. -/
def SavesWell (files : FileStore) (held stored : Prop) (v : Evolver σ) : Prop :=
  v.evolved.Writes files ∧ held ∨ ¬ v.evolved.Writes files ∧ stored

/-- An evolver that is opened can be relied on: the file of the evolved forms can, or it does not pass
where the rule file has a checksum. -/
def OpensWell (files : FileStore) (rulesPath cacheDir : Path) (syllables : Bool) (stored : Prop) : Prop :=
  stored ∨ (∃ hash, files.checksum rulesPath = .ok hash) ∧
    ¬ (PersistentCache.evolvedOnDisk files rulesPath cacheDir syllables).Passes files

section

variable (hengine : engine.WordWise laws rulesPath running) (hdigest : Set.InjOn textDigest texts)
  (htext : text ∈ texts) (hread : files.read rulesPath = .ok text)
include hengine hdigest htext hread

/-- Whatever was cached, an evolver that starts afresh reaches the present text. -/
theorem Placed.reaches_of_startsAfresh (hv : v.Placed running texts rulesPath cacheDir)
    (hfresh : v.StartsAfresh files) : v.Reaches engine laws running texts files text := by
  obtain ⟨w, hresult, hw, hfirst, -, hchanged⟩ :=
    hv.ready.exists_refresh hengine.reset hdigest htext hread
  refine ⟨w, hresult, hw, ?_⟩
  cases hhash : v.rulesHash with
  | none =>
    obtain ⟨dropped, hvalidated⟩ := hfirst hhash
    obtain ⟨-, ⟨-, -, hsame, hvouches, -⟩ | ⟨hentries, hstamped⟩⟩ :=
      PersistentCache.revalidate_eq_ok hvalidated
    · exact absurd ⟨hsame, hvouches⟩ (hfresh.first hhash)
    · exact PersistentCache.belongs_of_stamped hread hentries (hv.ready.evolvedSources ▸ hstamped)
  | some hash =>
    have hne : hash ≠ textDigest text := by
      rintro rfl
      exact hfresh.later _ hhash (hv.ready.path ▸ FileStore.checksum_eq hread)
    obtain ⟨c, hresult', -, hc⟩ := PersistentCache.belongs_clear laws hread hv.ready.evolvedSources
    cases (hchanged _ hhash hne).symm.trans hresult'
    exact hc

theorem Placed.reaches (hv : v.Placed running texts rulesPath cacheDir)
    (hheld : held → v.Dated laws running texts rulesPath cacheDir) (hwell : v.CallsWell files held) :
    v.Reaches engine laws running texts files text := by
  rcases hwell with hfresh | ⟨h, htimes⟩
  · exact hv.reaches_of_startsAfresh hengine hdigest htext hread hfresh
  · exact (hheld h).reaches hengine htext hread hdigest htimes

/-- A call at any time leaves an evolver in its place. -/
theorem Placed.call (hv : v.Placed running texts rulesPath cacheDir) (trace : Bool)
    (inputs : List Evolvable) :
    ((call engine files trace inputs).result v).2.Placed running texts rulesPath cacheDir ∧
      ((call engine files trace inputs).result v).2.syllables = v.syllables := by
  obtain ⟨w, hrefresh, hw, -⟩ := hv.ready.exists_refresh hengine.reset hdigest htext hread
  obtain ⟨batches, outcome, -, hruns⟩ := exists_runs_call hrefresh trace inputs
  obtain ⟨hready, -, halike, halike'⟩ := hv.ready.of_settled htext hw
    (hruns.tuned hengine hread hw.tuned) hruns.settled_eq
  have hsyllables := (syllables_eq_of_settled hruns.settled_eq).trans hw.syllables
  exact ⟨⟨hready, halike.2.2.trans (hv.settings.trans (congrArg Evolver.settings hsyllables.symm)),
    halike.1.trans hv.evolvedPath, halike'.1.trans hv.tracesPath⟩, hsyllables⟩

/-- What does not start afresh is refreshed without touching entries and checksums. -/
theorem Placed.exists_refresh_onto (hv : v.Placed running texts rulesPath cacheDir)
    (hnot : ¬ v.StartsAfresh files) :
    ∃ w times unsaved, (refresh engine files).result v = (.ok (RuleOrder.parse text), w) ∧
      Refreshed running texts text v w ∧ w.evolved = { v.evolved with times, unsaved } := by
  obtain ⟨w, hresult, hw, hfirst, hunchanged, -⟩ :=
    hv.ready.exists_refresh hengine.reset hdigest htext hread
  cases hhash : v.rulesHash with
  | none =>
    have hpasses : v.evolved.Passes files := by
      by_contra hevicts
      exact hnot ⟨fun _ => hevicts, fun hash hsome => by cases hhash.symm.trans hsome⟩
    obtain ⟨dropped, hvalidated⟩ := hfirst hhash
    obtain ⟨times, unsaved, hkept⟩ := hpasses.revalidate
    exact ⟨w, times, unsaved, hresult, hw, (Prod.mk.inj (hvalidated.symm.trans hkept)).2⟩
  | some hash =>
    have hsum : files.checksum v.rulesPath = .ok hash := by
      by_contra hchanges
      refine hnot ⟨fun hnone => (by cases hhash.symm.trans hnone), fun hash' hsome => ?_⟩
      cases hhash.symm.trans hsome
      exact hchanges
    rw [hv.ready.path, FileStore.checksum_eq hread, Except.ok.injEq] at hsum
    exact ⟨w, v.evolved.times, v.evolved.unsaved, hresult, hw, hunchanged (hsum ▸ hhash)⟩

/-- A call that does not start afresh builds on what is cached: every entry stays, and what is added is
what the law of the present text makes of words that are assembled from the entries, old and new. -/
theorem Placed.evolve_onto (hv : v.Placed running texts rulesPath cacheDir)
    (hnot : ¬ v.StartsAfresh files) (inputs : List Evolvable) :
    let left := ((evolve engine files inputs).result v).2
    v.Keeps left ∧ v.Follows (laws text) left ∧ left.evolved.hashes = v.evolved.hashes ∧
      left.rulesHash = some (textDigest text) := by
  intro left
  obtain ⟨w, times, unsaved, hrefresh, hw, hevolved⟩ :=
    hv.exists_refresh_onto hengine hdigest htext hread hnot
  obtain ⟨batches, outcome, hwindow, hruns⟩ := exists_runs_call hrefresh false inputs
  rw [(snd_result_call engine files inputs v).1] at hruns
  have hget : ∀ q, w.evolved.get? q = v.evolved.get? q := fun q => by rw [hevolved]; rfl
  have hnothing : v.Follows (laws text) w := fun q e hq hmissing => by
    cases hmissing.symm.trans ((hget q).symm.trans hq)
  have hsettled := hruns.settled_eq
  simp only [settled, PersistentCache.emptied, Prod.mk.injEq, PersistentCache.mk.injEq] at hsettled
  obtain ⟨-, -, hhash, -, ⟨-, -, -, -, -, hhashes, -⟩, -⟩ := hsettled
  refine ⟨fun q e hq => hruns.get?_eq ((hget q).trans hq),
    hruns.follows hengine hread hwindow hw.tuned hnothing, hhashes.trans (by rw [hevolved]),
    hhash.trans hw.hash⟩

/-- An untimely call builds on what was cached under another text of the rule file, or before there was
one. The checksums that tell what the entries belong to are still those of that text afterwards. -/
theorem Dated.evolve_untimely (hv : v.Dated laws running texts rulesPath cacheDir)
    (htimes : ¬ v.Timely files) (inputs : List Evolvable) :
    let left := ((evolve engine files inputs).result v).2
    ((∃ old ∈ texts, old ≠ text ∧ PersistentCache.Belongs laws old v.evolved.contents) ∨
      PersistentCache.Vacant v.evolved.contents) ∧
    v.Keeps left ∧ v.Follows (laws text) left ∧ left.evolved.hashes = v.evolved.hashes ∧
      left.rulesHash = some (textDigest text) := by
  intro left
  obtain ⟨hnone, hmislead⟩ : v.rulesHash = none ∧ ¬ v.evolved.TimesTell files :=
    Classical.not_imp.1 htimes
  have hpasses := PersistentCache.passes_of_not_timesTell hv.ready.evolvedSources hmislead
  refine ⟨hv.contents.imp_left fun ⟨old, hold, hbelongs⟩ => ⟨old, hold, ?_, hbelongs⟩,
    hv.placed.evolve_onto hengine hdigest htext hread (fun hfresh => hfresh.first hnone hpasses) inputs⟩
  rintro rfl
  exact hmislead (PersistentCache.timesTell_of_belongs hread hv.ready.evolvedSources hbelongs)

end

/-! ## Saving and opening -/

theorem savesWell_true (files : FileStore) (v : Evolver σ) : v.SavesWell files True True :=
  (Classical.em _).imp (⟨·, trivial⟩) (⟨·, trivial⟩)

theorem SavesWell.contents (hheld : held → v.Dated laws running texts rulesPath cacheDir)
    (hwell : v.SavesWell files held stored) (hwrites : v.evolved.Writes files) :
    PersistentCache.Dated laws texts v.evolved.contents := by
  rcases hwell with ⟨-, h⟩ | ⟨hnot, -⟩
  · exact (hheld h).contents
  · exact absurd hwrites hnot

theorem SavesWell.storesDated (hstored : stored → files.StoresDated laws texts cacheDir)
    (hwell : v.SavesWell files held stored) (hnot : ¬ v.evolved.Writes files) :
    files.StoresDated laws texts cacheDir := by
  rcases hwell with ⟨hwrites, -⟩ | ⟨-, h⟩
  · exact absurd hwrites hnot
  · exact hstored h

theorem OpensWell.dated {syllables : Bool}
    (htexts : ∀ text, files.read rulesPath = .ok text → text ∈ texts)
    (hstored : stored → files.StoresDated laws texts cacheDir)
    (hwell : OpensWell files rulesPath cacheDir syllables stored) {state : σ}
    (hidle : running state = none) :
    (opened files rulesPath cacheDir state syllables).Dated laws running texts rulesPath cacheDir := by
  rcases hwell with h | ⟨hsum, hnot⟩
  · exact dated_opened htexts (hstored h) hidle syllables
  · exact (placed_opened files rulesPath cacheDir hidle syllables).dated
      (.inl ⟨rfl, PersistentCache.dated_load_of_not_passes htexts hsum hnot⟩)

end Evolver

/-! ## Histories of an evolver -/

namespace Site

variable {rulesPath cacheDir : Path} {held stored : Prop} {s : Site σ}

/-- What a history of calls at any time leads to. It begins with an opening without a file of the evolved
forms. The rule file can be read at each call, and whenever it can be it has one of the texts; an edit may
also take the file of the evolved forms away. Along with the site come two statements: what the evolver
has cached can be relied on, and so can the file of the evolved forms. -/
inductive Worked (engine : Engine σ) (running : σ → Option String) (texts : Set String)
    (rulesPath cacheDir : Path) : Site σ → Prop → Prop → Prop
  | opened (files : FileStore) (state : σ) (syllables : Bool)
      (htexts : ∀ text, files.read rulesPath = .ok text → text ∈ texts)
      (hevolved : ∀ f, files.node? (files.target (Evolver.evolvedFile cacheDir)) ≠ some (.file f))
      (hidle : running state = none) :
      Worked engine running texts rulesPath cacheDir
        ⟨files, .opened files rulesPath cacheDir state syllables⟩ True True
  | call {s : Site σ} {held stored : Prop}
      (hs : Worked engine running texts rulesPath cacheDir s held stored) (trace : Bool)
      (inputs : List Evolvable) {text : String} (hread : s.files.read rulesPath = .ok text) :
      Worked engine running texts rulesPath cacheDir
        ⟨s.files, ((Evolver.call engine s.files trace inputs).result s.evolver).2⟩
        (s.evolver.CallsWell s.files held) stored
  | flush {s : Site σ} {held stored : Prop}
      (hs : Worked engine running texts rulesPath cacheDir s held stored)
      (htexts : ∀ text, (s.evolver.flush s.files).2.1.read rulesPath = .ok text → text ∈ texts) :
      Worked engine running texts rulesPath cacheDir
        ⟨(s.evolver.flush s.files).2.1, (s.evolver.flush s.files).2.2⟩
        held (s.evolver.SavesWell s.files held stored)
  | close {s : Site σ} {held stored : Prop}
      (hs : Worked engine running texts rulesPath cacheDir s held stored)
      (htexts : ∀ text, (s.evolver.close s.files).read rulesPath = .ok text → text ∈ texts) :
      Worked engine running texts rulesPath cacheDir ⟨s.evolver.close s.files, s.evolver⟩
        held (s.evolver.SavesWell s.files held stored)
  | reopen {s : Site σ} {held stored : Prop}
      (hs : Worked engine running texts rulesPath cacheDir s held stored) (state : σ)
      (syllables : Bool) (hidle : running state = none) :
      Worked engine running texts rulesPath cacheDir
        ⟨s.files, .opened s.files rulesPath cacheDir state syllables⟩
        (Evolver.OpensWell s.files rulesPath cacheDir syllables stored) stored
  | edit {s : Site σ} {held stored : Prop}
      (hs : Worked engine running texts rulesPath cacheDir s held stored) (files : FileStore)
      (htexts : ∀ text, files.read rulesPath = .ok text → text ∈ texts)
      (hcaches : ∀ f, files.node? (files.target (Evolver.evolvedFile cacheDir)) = some (.file f) →
        ∃ g, s.files.node? (s.files.target (Evolver.evolvedFile cacheDir)) = some (.file g) ∧
          f.text = g.text) :
      Worked engine running texts rulesPath cacheDir { s with files } held stored

/-- The rule file has one of the texts, the evolver is in its place, and what can be relied on can be
dated. -/
structure Sustained (laws : String → Law) (running : σ → Option String) (texts : Set String)
    (rulesPath cacheDir : Path) (s : Site σ) (held stored : Prop) : Prop where
  files : ∀ text, s.files.read rulesPath = .ok text → text ∈ texts
  placed : s.evolver.Placed running texts rulesPath cacheDir
  held : held → s.evolver.Dated laws running texts rulesPath cacheDir
  stored : stored → s.files.StoresDated laws texts cacheDir

namespace Sustained

theorem opened (htexts : ∀ text, files.read rulesPath = .ok text → text ∈ texts)
    (hevolved : ∀ f, files.node? (files.target (Evolver.evolvedFile cacheDir)) ≠ some (.file f))
    {state : σ} (hidle : running state = none) (syllables : Bool) :
    Sustained laws running texts rulesPath cacheDir
      ⟨files, .opened files rulesPath cacheDir state syllables⟩ True True := by
  have hstores : files.StoresDated laws texts cacheDir := fun f hf => absurd hf (hevolved f)
  exact ⟨htexts, Evolver.placed_opened _ _ _ hidle _,
    fun _ => Evolver.dated_opened htexts hstores hidle _, fun _ => hstores⟩

theorem call (hengine : engine.WordWise laws rulesPath running) (hdigest : Set.InjOn textDigest texts)
    (hs : s.Sustained laws running texts rulesPath cacheDir held stored) {text : String}
    (hread : s.files.read rulesPath = .ok text) (trace : Bool) (inputs : List Evolvable) :
    Sustained laws running texts rulesPath cacheDir
      ⟨s.files, ((Evolver.call engine s.files trace inputs).result s.evolver).2⟩
      (s.evolver.CallsWell s.files held) stored := by
  have htext := hs.files _ hread
  refine ⟨hs.files, (hs.placed.call hengine hdigest htext hread trace inputs).1, fun hwell => ?_,
    hs.stored⟩
  exact (hs.placed.call_of_reaches hengine htext hread
    (hs.placed.reaches hengine hdigest htext hread hs.held hwell) trace inputs).dated

theorem flush (hs : s.Sustained laws running texts rulesPath cacheDir held stored)
    (htexts : ∀ text, (s.evolver.flush s.files).2.1.read rulesPath = .ok text → text ∈ texts) :
    Sustained laws running texts rulesPath cacheDir
      ⟨(s.evolver.flush s.files).2.1, (s.evolver.flush s.files).2.2⟩
      held (s.evolver.SavesWell s.files held stored) :=
  ⟨htexts, (hs.placed.flush s.files).1, fun h => (hs.held h).flush s.files, fun hwell =>
    Evolver.storesDated_flush hs.placed (hwell.contents hs.held) (hwell.storesDated hs.stored)⟩

theorem close (hs : s.Sustained laws running texts rulesPath cacheDir held stored)
    (htexts : ∀ text, (s.evolver.close s.files).read rulesPath = .ok text → text ∈ texts) :
    Sustained laws running texts rulesPath cacheDir ⟨s.evolver.close s.files, s.evolver⟩
      held (s.evolver.SavesWell s.files held stored) :=
  ⟨htexts, hs.placed, hs.held, fun hwell =>
    Evolver.storesDated_close hs.placed (hwell.contents hs.held) (hwell.storesDated hs.stored)⟩

theorem reopen (hs : s.Sustained laws running texts rulesPath cacheDir held stored) {state : σ}
    (hidle : running state = none) (syllables : Bool) :
    Sustained laws running texts rulesPath cacheDir
      ⟨s.files, .opened s.files rulesPath cacheDir state syllables⟩
      (Evolver.OpensWell s.files rulesPath cacheDir syllables stored) stored :=
  ⟨hs.files, Evolver.placed_opened _ _ _ hidle _, fun hwell => hwell.dated hs.files hs.stored hidle,
    hs.stored⟩

theorem edit (hs : s.Sustained laws running texts rulesPath cacheDir held stored)
    (htexts : ∀ text, files.read rulesPath = .ok text → text ∈ texts)
    (hcaches : ∀ f, files.node? (files.target (Evolver.evolvedFile cacheDir)) = some (.file f) →
      ∃ g, s.files.node? (s.files.target (Evolver.evolvedFile cacheDir)) = some (.file g) ∧
        f.text = g.text) :
    Sustained laws running texts rulesPath cacheDir { s with files } held stored := by
  refine ⟨htexts, hs.placed, hs.held, fun h f hf saved hsaved => ?_⟩
  obtain ⟨g, hg, htext⟩ := hcaches f hf
  exact hs.stored h g hg saved (htext ▸ hsaved)

end Sustained

theorem sustained_of_worked (hengine : engine.WordWise laws rulesPath running)
    (hdigest : Set.InjOn textDigest texts)
    (hs : s.Worked engine running texts rulesPath cacheDir held stored) :
    s.Sustained laws running texts rulesPath cacheDir held stored := by
  induction hs with
  | opened files state syllables htexts hevolved hidle => exact .opened htexts hevolved hidle syllables
  | call _ trace inputs hread ih => exact ih.call hengine hdigest hread trace inputs
  | flush _ htexts ih => exact ih.flush htexts
  | close _ htexts ih => exact ih.close htexts
  | reopen _ state syllables hidle ih => exact ih.reopen hidle syllables
  | edit _ files htexts hcaches ih => exact ih.edit htexts hcaches

/-- After any history, a call that starts afresh evolves each input the plain way, and so does one that
finds a cache that can be relied on and times that do not mislead. -/
theorem evolve_of_worked (hengine : engine.WordWise laws rulesPath running)
    (hdigest : Set.InjOn textDigest texts)
    (hs : s.Worked engine running texts rulesPath cacheDir held stored) {text : String}
    (hread : s.files.read rulesPath = .ok text) (hwell : s.evolver.CallsWell s.files held)
    (inputs : List Evolvable) (es : List Evolved) :
    ((Evolver.evolve engine s.files inputs).result s.evolver).1 = .ok es ↔
      List.Forall₂ (fun input e => ∃ q,
        Query.ofForm (.parse text) (input.arranged (.parse text)) = .ok q ∧
          q.naive (laws text) s.evolver.syllables = .ok e) inputs es := by
  have hsustained := sustained_of_worked hengine hdigest hs
  have htext := hsustained.files _ hread
  obtain ⟨answer, u, hresult, -, hanswer⟩ := hsustained.placed.evolve_of_reaches hengine htext hread
    (hsustained.placed.reaches hengine hdigest htext hread hsustained.held hwell) inputs
  rw [hresult]
  exact hanswer es

/-- Whatever was called before, once the rule file has another text than at the last call, each input is
evolved the plain way. -/
theorem evolve_of_changed (hengine : engine.WordWise laws rulesPath running)
    (hdigest : Set.InjOn textDigest texts)
    (hs : s.Worked engine running texts rulesPath cacheDir held stored) {text hash : String}
    (hread : s.files.read rulesPath = .ok text) (hhash : s.evolver.rulesHash = some hash)
    (hne : hash ≠ textDigest text) (inputs : List Evolvable) (es : List Evolved) :
    ((Evolver.evolve engine s.files inputs).result s.evolver).1 = .ok es ↔
      List.Forall₂ (fun input e => ∃ q,
        Query.ofForm (.parse text) (input.arranged (.parse text)) = .ok q ∧
          q.naive (laws text) s.evolver.syllables = .ok e) inputs es := by
  have hpath := (sustained_of_worked hengine hdigest hs).placed.ready.path
  refine evolve_of_worked hengine hdigest hs hread (.inl ⟨fun hnone => ?_, fun hash' hsome hsum => ?_⟩)
    inputs es
  · cases hhash.symm.trans hnone
  · rw [hpath, FileStore.checksum_eq hread, Except.ok.injEq] at hsum
    rw [hhash, Option.some.injEq] at hsome
    exact hne (hsome.trans hsum.symm)

/-- Histories of timely calls are among these, and everything can be relied on in them. -/
theorem worked_of_reached (hengine : engine.WordWise laws rulesPath running)
    (hdigest : Set.InjOn textDigest texts) (hs : s.Reached engine running texts rulesPath cacheDir) :
    s.Worked engine running texts rulesPath cacheDir True True := by
  have htexts : ∀ {t : Site σ}, t.Reached engine running texts rulesPath cacheDir →
      ∀ text, t.files.read rulesPath = .ok text → text ∈ texts := by
    intro t ht text hread
    obtain ⟨present, hpresent, hread'⟩ := (upheld_of_reached hengine hdigest ht).files.readable
    cases hread.symm.trans hread'
    exact hpresent
  induction hs with
  | opened files text htext hread hevolved htraces state syllables hidle =>
    exact .opened files state syllables (htexts (.opened files text htext hread hevolved htraces state
      syllables hidle)) hevolved hidle
  | @step s t hs hst ih =>
    obtain ⟨text, htext, hread⟩ := (upheld_of_reached hengine hdigest hs).files.readable
    have hsaves : s.evolver.SavesWell s.files True True = True := eq_true (Evolver.savesWell_true _ _)
    have hafter := htexts (hs.step hst)
    cases hst with
    | evolve inputs htimes =>
      have hcalled := ih.call false inputs hread
      rwa [(Evolver.snd_result_call engine s.files inputs s.evolver).1,
        show s.evolver.CallsWell s.files True = True from eq_true (.inr ⟨trivial, htimes⟩)] at hcalled
    | trace inputs htimes =>
      have hcalled := ih.call true inputs hread
      rwa [(Evolver.snd_result_call engine s.files inputs s.evolver).2,
        show s.evolver.CallsWell s.files True = True from eq_true (.inr ⟨trivial, htimes⟩)] at hcalled
    | flush =>
      have hflushed := ih.flush hafter
      rwa [hsaves] at hflushed
    | reopen state syllables hidle =>
      have hreopened := (ih.close hafter).reopen state syllables hidle
      rwa [hsaves, show Evolver.OpensWell (s.evolver.close s.files) rulesPath cacheDir syllables True =
        True from eq_true (.inl trivial)] at hreopened
    | edit text time files _ hwrite =>
      refine ih.edit files hafter fun f hf => ?_
      obtain ⟨hputs, -⟩ := FileStore.puts_write_at hwrite
      rw [hputs.target_eq] at hf
      rcases hputs.files hf with hold | ⟨heq, -⟩
      · exact ⟨f, hold, rfl⟩
      · exact absurd heq.symm (upheld_of_reached hengine hdigest hs).files.apart.1

end Site

end Etymon
