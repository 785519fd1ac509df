import Etymon.Proofs.Pages
import Etymon.Proofs.ReadySessions
import Etymon.Proofs.UntimelyCalls

/-!
# Sessions that can be dated

A project is opened again and again, its files are edited, sentences are evolved in it, and its caches
are saved. A sentence comes to the same in all of these sessions as long as the rule file, the lexicon
and the metadata are the same, and that is what its forms evolve to by themselves.

A call that is the first one of its evolver has to find times that do not mislead. Histories with other
calls keep track of what can be relied on after them.

## Main definitions

* `Session.Evolves`: what a sentence comes to by itself.
* `Session.Dated`: a grounded lexicon, and an evolver that can be dated.
* `Session.Desk.Worked`: what a history of requests at any time leads to.
* `Session.Desk.Turn`: a timely call, saving, opening anew, or an edit.
* `Session.Desk.Lived`: what a history of turns leads to.

## Main results

* `Session.evolve_of_reaches`: a call gives what its sentence comes to by itself.
* `Session.Desk.evolve_of_worked`: so does a call after any history, if it starts afresh or finds what can
  be relied on.
* `Session.Desk.dated_of_lived`: histories of timely calls keep a session and its caches dated.
-/

namespace Etymon

open Etymon.Action

variable {σ : Type} {engine : Engine σ} {laws : String → Law} {running : σ → Option String}
  {texts : Set String} {files files' : FileStore}

namespace Session

variable {dir : Location} {project : Project} {metadata : Metadata} {s : Session σ} {text : String}
  {es : List Evolved}

/-- What a sentence comes to by itself: its forms, which the lexicon tells, evolve the plain way under
the rule file. -/
def Evolves (laws : String → Law) (files : FileStore) (project : Project) (metadata : Metadata)
    (text : String) (es : List Evolved) : Prop :=
  ∃ rules forms, files.read project.changesPath = .ok rules ∧
    formsOf? (loadLexicon files project).toOption metadata.defaultScope text = some forms ∧
    List.Forall₂ (fun form e => ∃ q,
      Query.ofForm (.parse rules) (form.arrange (.parse rules)) = .ok q ∧
        q.naive (laws rules) metadata.syllables = .ok e) forms es

theorem Evolves.congr (hrules : files'.read project.changesPath = files.read project.changesPath)
    (hlexicon : (loadLexicon files' project).toOption = (loadLexicon files project).toOption) :
    Evolves laws files' project metadata text es ↔ Evolves laws files project metadata text es := by
  rw [Evolves, Evolves, hrules, hlexicon]

/-- The lexicon is grounded, and the evolver can be dated; words are joined as the metadata says. -/
structure Dated (laws : String → Law) (running : σ → Option String) (texts : Set String)
    (dir : Location) (project : Project) (s : Session σ) : Prop where
  lexicon : s.IsGrounded texts dir project
  evolver : s.evolver.Dated laws running texts project.changesPath project.cacheDir
  syllables : s.evolver.syllables = s.metadata.syllables

theorem dated_opened (hholds : files.Holds texts)
    (hstores : files.StoresDated laws texts project.cacheDir) (metadata : Metadata) {state : σ}
    (hidle : running state = none) :
    (opened files project metadata state).Dated laws running texts files.workDir project :=
  ⟨⟨rfl, nofun⟩, Evolver.dated_opened (hholds _) hstores hidle _, rfl⟩

/-! ### Calls -/

/-- A session that can be dated, and whose evolver has times that do not mislead. -/
structure OnTime (laws : String → Law) (running : σ → Option String) (texts : Set String)
    (files : FileStore) (project : Project) (s : Session σ) : Prop where
  dated : s.Dated laws running texts files.workDir project
  timely : s.evolver.Timely files

/-- A call gives what its sentence comes to by itself if the evolver reaches the text of the rule file,
whatever it held before. The evolver is called only where that file can be read. -/
theorem evolve_of_reaches (hengine : engine.WordWise laws project.changesPath running)
    (hdigest : Set.InjOn textDigest texts) (hholds : files.Holds texts)
    (hlexicon : s.IsGrounded texts files.workDir project)
    (hplaced : s.evolver.Placed running texts project.changesPath project.cacheDir)
    (hsyllables : s.evolver.syllables = s.metadata.syllables)
    (hreaches : ∀ rules, files.read project.changesPath = .ok rules →
      s.evolver.Reaches engine laws running texts files rules) (text : String) :
    ∃ answer cache u, (evolve engine files text).result s =
        (answer, { s with lexicon := cache, evolver := u }) ∧
      Grounded texts files.workDir project cache ∧
      (u = s.evolver ∨ u.OnTime laws running texts project.changesPath project.cacheDir files
        s.evolver.syllables) ∧
      ∀ es, answer = .ok es ↔ Evolves laws files project s.metadata text es := by
  obtain ⟨rfl, hgrounded⟩ := hlexicon
  obtain ⟨outcome, cache, hresolve, hcache, hforms, -⟩ := exists_resolve hdigest hholds hgrounded text
  rw [Session.evolve]
  cases outcome with
  | error e =>
    rw [Action.result_bind_error hresolve]
    refine ⟨.error e, cache, s.evolver, rfl, hcache, .inl rfl, fun es => ?_⟩
    constructor
    · rintro ⟨⟩
    · rintro ⟨rules, forms, -, hforms', -⟩
      cases hforms.trans hforms'
  | ok forms =>
    obtain ⟨rules, hread⟩ := (loads_of_formsOf? hforms.symm).exists_rules
    obtain ⟨answer, u, hresult, hu, hanswer⟩ := hplaced.evolve_of_reaches hengine (hholds _ _ hread)
      hread (hreaches rules hread) (forms.map .form)
    rw [Action.result_bind_ok hresolve, onEvolver, Action.result_part, hresult]
    refine ⟨answer, cache, u, rfl, hcache, .inr hu, fun es => ?_⟩
    rw [hanswer, List.forall₂_map_left_iff, hsyllables]
    constructor
    · intro h
      exact ⟨rules, forms, hread, hforms.symm, h⟩
    · rintro ⟨rules', forms', hread', hforms', h⟩
      cases hread.symm.trans hread'
      cases hforms.trans hforms'
      exact h

/-- A session on time is so after a call. -/
theorem OnTime.evolve (hengine : engine.WordWise laws project.changesPath running)
    (hdigest : Set.InjOn textDigest texts) (hholds : files.Holds texts)
    (hs : s.OnTime laws running texts files project) (text : String) :
    ∃ answer s', (evolve engine files text).result s = (answer, s') ∧
      s'.OnTime laws running texts files project ∧ s'.metadata = s.metadata ∧
      ∀ es, answer = .ok es ↔ Evolves laws files project s.metadata text es := by
  obtain ⟨⟨hlexicon, hdated, hsyllables⟩, htimes⟩ := hs
  obtain ⟨answer, cache, u, hresult, hcache, hu, hanswer⟩ := evolve_of_reaches hengine hdigest hholds
    hlexicon hdated.placed hsyllables
    (fun rules hread => hdated.reaches hengine (hholds _ _ hread) hread hdigest htimes) text
  have hu : u.OnTime laws running texts project.changesPath project.cacheDir files
      s.evolver.syllables := by
    rcases hu with rfl | hu
    · exact ⟨hdated, htimes, rfl⟩
    · exact hu
  exact ⟨answer, _, hresult, ⟨⟨⟨hlexicon.belongs, hcache⟩, hu.dated, hu.syllables.trans hsyllables⟩,
    hu.timely⟩, rfl, hanswer⟩

/-- A session keeps the metadata that it was opened with. -/
theorem preserves_metadata_call (engine : Engine σ) (files : FileStore) (metadata : Metadata)
    (request : Request) :
    Preserves (fun s : Session σ => s.metadata = metadata) (request.call engine files) := by
  refine preserves_call_of (fun s hs => ?_) (fun _ _ _ _ _ => trivial)
    (fun _ _ _ hs => hs) (fun _ _ _ hs => hs) request
  rw [result_currentLexicon]
  split
  · exact hs
  · exact hs
  · split
    · exact hs
    · split <;> exact hs

/-- Every request keeps a session on time, whether or not it is answered. -/
theorem OnTime.preserves_call (hengine : engine.WordWise laws project.changesPath running)
    (hdigest : Set.InjOn textDigest texts) (hholds : files.Holds texts) (request : Request) :
    Preserves (OnTime laws running texts files project) (request.call engine files) := by
  rintro s ⟨⟨hlexicon, hdated, hsyllables⟩, htimes⟩
  obtain ⟨hlexicon', hdated', htimes', hsyllables'⟩ := preserves_call_of_evolver
    (P := Evolver.OnTime laws running texts project.changesPath project.cacheDir files
      s.evolver.syllables) hdigest hholds
    (fun rules hread trace inputs v hv =>
      hv.call hengine (hholds _ _ hread) hread hdigest trace inputs)
    request s ⟨hlexicon, hdated, htimes, rfl⟩
  have hmetadata := preserves_metadata_call engine files s.metadata request s rfl
  exact ⟨⟨hlexicon', hdated', by rw [hsyllables', hmetadata, hsyllables]⟩, htimes'⟩

/-- Saving a session saves its evolver. -/
theorem flush_eq (s : Session σ) (files : FileStore) :
    s.flush files = ((s.evolver.flush files).1, (s.evolver.flush files).2.1,
      { s with evolver := (s.evolver.flush files).2.2 }) :=
  rfl

/-! ## Histories -/

namespace Desk

variable {held stored : Prop} {d : Desk σ}

/-- What the evolver has cached can be relied on after a request, which may come to no call of it. -/
def RequestsWell (engine : Engine σ) (d : Desk σ) (request : Request) (held : Prop) : Prop :=
  let left := ((request.call engine d.files).result d.session).2.evolver
  left = d.session.evolver ∧ held ∨ left ≠ d.session.evolver ∧ d.session.evolver.CallsWell d.files held

/-- What a history of requests at any time leads to, with two statements: what the evolver has cached can
be relied on, and so can the file of the evolved forms. It begins with opening the project without that
file. An edit leaves the working directory and the file where they are, or takes the file away. All texts
that files ever have are among the given ones. -/
inductive Worked (engine : Engine σ) (running : σ → Option String) (texts : Set String)
    (project : Project) : Desk σ → Prop → Prop → Prop
  | opened (files : FileStore) (metadata : Metadata) (state : σ) (hholds : files.Holds texts)
      (hevolved : ∀ f, files.node? (files.target (Evolver.evolvedFile project.cacheDir)) ≠
        some (.file f))
      (hidle : running state = none) :
      Worked engine running texts project ⟨files, .opened files project metadata state⟩ True True
  | edit {d : Desk σ} {held stored : Prop} (hd : Worked engine running texts project d held stored)
      (files : FileStore) (hdir : files.workDir = d.files.workDir) (hholds : files.Holds texts)
      (hcaches : ∀ f, files.node? (files.target (Evolver.evolvedFile project.cacheDir)) =
        some (.file f) → ∃ g, d.files.node? (d.files.target (Evolver.evolvedFile project.cacheDir)) =
          some (.file g) ∧ f.text = g.text) :
      Worked engine running texts project { d with files } held stored
  | call {d : Desk σ} {held stored : Prop} (hd : Worked engine running texts project d held stored)
      (request : Request) :
      Worked engine running texts project
        ⟨d.files, ((request.call engine d.files).result d.session).2⟩
        (d.RequestsWell engine request held) stored
  | flush {d : Desk σ} {held stored : Prop} (hd : Worked engine running texts project d held stored)
      (hholds : (d.session.flush d.files).2.1.Holds texts) :
      Worked engine running texts project ⟨(d.session.flush d.files).2.1, (d.session.flush d.files).2.2⟩
        held (d.session.evolver.SavesWell d.files held stored)
  | close {d : Desk σ} {held stored : Prop} (hd : Worked engine running texts project d held stored)
      (hholds : (d.session.close d.files).Holds texts) :
      Worked engine running texts project ⟨d.session.close d.files, d.session⟩
        held (d.session.evolver.SavesWell d.files held stored)
  | reopen {d : Desk σ} {held stored : Prop} (hd : Worked engine running texts project d held stored)
      (metadata : Metadata) (state : σ) (hidle : running state = none) :
      Worked engine running texts project ⟨d.files, .opened d.files project metadata state⟩
        (Evolver.OpensWell d.files project.changesPath project.cacheDir metadata.syllables stored) stored

/-- Files have known texts, the session is grounded, and its evolver and the files are sustained. -/
structure Sustained (laws : String → Law) (running : σ → Option String) (texts : Set String)
    (project : Project) (d : Desk σ) (held stored : Prop) : Prop where
  holds : d.files.Holds texts
  lexicon : d.session.IsGrounded texts d.files.workDir project
  syllables : d.session.evolver.syllables = d.session.metadata.syllables
  site : Site.Sustained laws running texts project.changesPath project.cacheDir
    ⟨d.files, d.session.evolver⟩ held stored

theorem Sustained.call (hengine : engine.WordWise laws project.changesPath running)
    (hdigest : Set.InjOn textDigest texts) (hd : d.Sustained laws running texts project held stored)
    (request : Request) : Sustained laws running texts project
      ⟨d.files, ((request.call engine d.files).result d.session).2⟩
      (d.RequestsWell engine request held) stored := by
  obtain ⟨hholds, hlexicon, hsyllables, hsite⟩ := hd
  have hmetadata := preserves_metadata_call engine d.files d.session.metadata request d.session rfl
  obtain ⟨hlexicon', hplaced, hsyllables'⟩ := preserves_call_of_evolver
    (P := fun v => v.Placed running texts project.changesPath project.cacheDir ∧
      v.syllables = d.session.evolver.syllables) hdigest hholds
    (fun rules hread trace inputs v ⟨hv, hsame⟩ =>
      (hv.call hengine hdigest (hholds _ _ hread) hread trace inputs).imp_right (·.trans hsame))
    request d.session ⟨hlexicon, hsite.placed, rfl⟩
  refine ⟨hholds, hlexicon', by rw [hsyllables', hmetadata, hsyllables], hsite.files, hplaced,
    fun hwell => ?_, hsite.stored⟩
  rcases hwell with ⟨hsame, h⟩ | ⟨hcalled, hwell⟩
  · exact hsame ▸ hsite.held h
  · -- the first call of the evolver goes well, and later ones find it on time
    obtain ⟨-, hleft⟩ := preserves_call_of_evolver
      (P := fun v => v = d.session.evolver ∨ v.OnTime laws running texts project.changesPath
        project.cacheDir d.files d.session.evolver.syllables) hdigest hholds
      (fun rules hread trace inputs v hv => by
        have hrules := hholds _ _ hread
        refine .inr ?_
        rcases hv with rfl | hv
        · exact hsite.placed.call_of_reaches hengine hrules hread
            (hsite.placed.reaches hengine hdigest hrules hread hsite.held hwell) trace inputs
        · exact hv.call hengine hrules hread hdigest trace inputs)
      request d.session ⟨hlexicon, .inl rfl⟩
    exact (hleft.resolve_left hcalled).dated

theorem sustained_of_worked (hengine : engine.WordWise laws project.changesPath running)
    (hdigest : Set.InjOn textDigest texts) (hd : d.Worked engine running texts project held stored) :
    d.Sustained laws running texts project held stored := by
  induction hd with
  | opened files metadata state hholds hevolved hidle =>
    exact ⟨hholds, ⟨rfl, nofun⟩, rfl, .opened (hholds _) hevolved hidle _⟩
  | edit _ files hdir hholds hcaches ih =>
    refine ⟨hholds, ?_, ih.syllables, ih.site.edit (hholds _) hcaches⟩
    dsimp only
    rw [hdir]
    exact ih.lexicon
  | call _ request ih => exact ih.call hengine hdigest request
  | @flush d _ _ _ hholds ih =>
    rw [flush_eq] at hholds ⊢
    refine ⟨hholds, ⟨ih.lexicon.belongs, ?_⟩, (ih.site.placed.flush d.files).2.trans ih.syllables,
      ih.site.flush (hholds _)⟩
    dsimp only
    rw [d.session.evolver.workDir_flush d.files]
    exact ih.lexicon.grounded
  | @close d _ _ _ hholds ih =>
    have hdir : (d.session.close d.files).workDir = d.files.workDir :=
      d.session.evolver.workDir_close d.files
    refine ⟨hholds, ?_, ih.syllables, ih.site.close (hholds _)⟩
    dsimp only
    rw [hdir]
    exact ih.lexicon
  | reopen _ metadata state hidle ih =>
    exact ⟨ih.holds, ⟨rfl, nofun⟩, rfl, ih.site.reopen hidle _⟩

/-- After any history, a sentence evolves to what it comes to by itself if the evolver starts afresh, or
can be relied on and finds times that do not mislead. -/
theorem evolve_of_worked (hengine : engine.WordWise laws project.changesPath running)
    (hdigest : Set.InjOn textDigest texts) (hd : d.Worked engine running texts project held stored)
    (hwell : d.session.evolver.CallsWell d.files held) (text : String) (es : List Evolved) :
    ((Session.evolve engine d.files text).result d.session).1 = .ok es ↔
      Evolves laws d.files project d.session.metadata text es := by
  obtain ⟨hholds, hlexicon, hsyllables, hsite⟩ := sustained_of_worked hengine hdigest hd
  obtain ⟨answer, cache, u, hresult, -, -, hanswer⟩ := evolve_of_reaches hengine hdigest hholds hlexicon
    hsite.placed hsyllables
    (fun rules hread => hsite.placed.reaches hengine hdigest (hholds _ _ hread) hread hsite.held hwell)
    text
  rw [hresult]
  exact hanswer es

/-! ### Timely calls -/

/-- What can happen. An edit leaves the working directory and the file of the evolved forms where they
are, or takes that file away. A call that comes to the evolver finds times that do not mislead. Sessions
are opened with an engine that does not run yet and with any metadata, whether or not the one before was
closed. All texts that files ever have are among the given ones. -/
inductive Turn (engine : Engine σ) (running : σ → Option String) (texts : Set String)
    (project : Project) : Desk σ → Desk σ → Prop
  | edit (d : Desk σ) (files : FileStore) (hdir : files.workDir = d.files.workDir)
      (hholds : files.Holds texts)
      (hcaches : ∀ f, files.node? (files.target (Evolver.evolvedFile project.cacheDir)) =
        some (.file f) → ∃ g, d.files.node? (d.files.target (Evolver.evolvedFile project.cacheDir)) =
          some (.file g) ∧ f.text = g.text) :
      Turn engine running texts project d { d with files }
  | call (d : Desk σ) (request : Request)
      (htimes : ((request.call engine d.files).result d.session).2.evolver ≠ d.session.evolver →
        d.session.evolver.Timely d.files) :
      Turn engine running texts project d
        ⟨d.files, ((request.call engine d.files).result d.session).2⟩
  | flush (d : Desk σ) (hholds : (d.session.flush d.files).2.1.Holds texts) :
      Turn engine running texts project d
        ⟨(d.session.flush d.files).2.1, (d.session.flush d.files).2.2⟩
  | close (d : Desk σ) (hholds : (d.session.close d.files).Holds texts) :
      Turn engine running texts project d ⟨d.session.close d.files, d.session⟩
  | reopen (d : Desk σ) (metadata : Metadata) (state : σ) (hidle : running state = none) :
      Turn engine running texts project d ⟨d.files, .opened d.files project metadata state⟩

/-- What a history leads to that begins with opening the project without a file of evolved forms. -/
inductive Lived (engine : Engine σ) (running : σ → Option String) (texts : Set String)
    (project : Project) : Desk σ → Prop
  | opened (files : FileStore) (metadata : Metadata) (state : σ) (hholds : files.Holds texts)
      (hevolved : ∀ f, files.node? (files.target (Evolver.evolvedFile project.cacheDir)) ≠
        some (.file f))
      (hidle : running state = none) :
      Lived engine running texts project ⟨files, .opened files project metadata state⟩
  | turn {d d' : Desk σ} (hd : Lived engine running texts project d)
      (hturn : Turn engine running texts project d d') : Lived engine running texts project d'

/-- Histories of timely calls are among these, and everything can be relied on in them. -/
theorem worked_of_lived (hd : d.Lived engine running texts project) :
    d.Worked engine running texts project True True := by
  induction hd with
  | opened files metadata state hholds hevolved hidle =>
    exact .opened files metadata state hholds hevolved hidle
  | @turn d d' _ hturn ih =>
    have hsaves : d.session.evolver.SavesWell d.files True True = True :=
      eq_true (Evolver.savesWell_true _ _)
    cases hturn with
    | edit files hdir hholds hcaches => exact ih.edit files hdir hholds hcaches
    | call request htimes =>
      have hwell : d.RequestsWell engine request True = True := eq_true
        ((Classical.em _).imp (⟨·, trivial⟩) fun hcalled => ⟨hcalled, .inr ⟨trivial, htimes hcalled⟩⟩)
      have hcalled := ih.call request
      rwa [hwell] at hcalled
    | flush hholds =>
      have hflushed := ih.flush hholds
      rwa [hsaves] at hflushed
    | close hholds =>
      have hclosed := ih.close hholds
      rwa [hsaves] at hclosed
    | reopen metadata state hidle =>
      have hreopened := ih.reopen metadata state hidle
      rwa [show Evolver.OpensWell d.files project.changesPath project.cacheDir metadata.syllables True =
        True from eq_true (.inl trivial)] at hreopened

/-- Files have known texts, and what the session and the file of the evolved forms hold can be dated. -/
structure Dated (laws : String → Law) (running : σ → Option String) (texts : Set String)
    (project : Project) (d : Desk σ) : Prop where
  holds : d.files.Holds texts
  stores : d.files.StoresDated laws texts project.cacheDir
  session : d.session.Dated laws running texts d.files.workDir project

theorem dated_of_lived (hengine : engine.WordWise laws project.changesPath running)
    (hdigest : Set.InjOn textDigest texts) (hd : d.Lived engine running texts project) :
    d.Dated laws running texts project := by
  obtain ⟨hholds, hlexicon, hsyllables, hsite⟩ :=
    sustained_of_worked hengine hdigest (worked_of_lived hd)
  exact ⟨hholds, hsite.stored trivial, hlexicon, hsite.held trivial, hsyllables⟩

end Desk

end Session

end Etymon
