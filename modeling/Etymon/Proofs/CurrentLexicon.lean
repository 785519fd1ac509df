import Etymon.Proofs.Inlining
import Etymon.Proofs.Memos
import Etymon.Session

/-!
# The current lexicon

A session keeps its lexicon and loads it again when one of the files that it was read from has changed.
These files are told by their own texts, so as long as they are read the same there are no others; and
where one of them can no longer be read, loading reaches it and fails as well. A lexicon that is kept is
therefore the one that would be loaded, whatever was edited, and whatever failed to load in between.

## Main definitions

* `Session.Grounded`: a kept lexicon was loaded from the files that its stamps were taken of.
* `Session.Desk`: a session with the files of its project.
* `Session.Desk.Reached`: what a history of edits and calls leads to.

## Main results

* `Session.loadLexicon_congr`: the reported files determine what is loaded.
* `Session.currentLexicon_cases`: the current lexicon is the loaded one, or there is none.
* `Session.current_as_loaded`: so is it after any history, and with it what a session answers.
-/

namespace Etymon

/-! ## Loading from files that are read the same -/

theorem RuleOrder.load_eq_ok_iff {files : FileStore} {path : Path} {order : RuleOrder} :
    load files path = .ok order ↔ ∃ text, files.read path = .ok text ∧ parse text = order := by
  rw [load]
  cases files.read path <;> simp [Except.mapError, Except.map]

namespace Lexicon

variable {files other : FileStore} {root path : Path} {lex : Lexicon}

theorem load_congr (h : load files root = .ok lex) (hdir : other.workDir = files.workDir)
    (hread : ∀ p ∈ lex.sources, other.read p = files.read p) : load other root = .ok lex := by
  obtain ⟨items, hinlines, hnodup, hlex⟩ := exists_items_of_load h
  exact (hinlines.congr hdir hread).load_eq_ok_iff.2 ⟨hnodup, hlex⟩

theorem readable_of_load (h : load files root = .ok lex) :
    ∀ p ∈ lex.sources, ∃ text, files.read p = .ok text := by
  obtain ⟨items, hinlines, -⟩ := exists_items_of_load h
  exact hinlines.readable

theorem mem_sources_of_load (h : load files root = .ok lex) : root ∈ lex.sources := by
  obtain ⟨items, hinlines, -⟩ := exists_items_of_load h
  generalize lex.sources = sources at hinlines
  cases hinlines with
  | file => exact List.mem_cons_self

/-- Where the first source that is read differently cannot be read, nothing can be loaded. -/
theorem load_ne_ok_of_unreadable (h : load files root = .ok lex)
    (hdir : other.workDir = files.workDir) {before after : List Path}
    (hsources : lex.sources = before ++ path :: after)
    (hread : ∀ p ∈ before, other.read p = files.read p) (hfault : ∀ text, other.read path ≠ .ok text)
    (lex' : Lexicon) : load other root ≠ .ok lex' := by
  intro hload
  obtain ⟨items, hinlines, -⟩ := exists_items_of_load h
  obtain ⟨_, v, rfl, hreach, rfl⟩ := hinlines.exists_visit hdir hsources hread
  obtain ⟨location, records, hopens⟩ :=
    (exists_inlines_iff other root).1 (exists_inlines_of_load hload) v hreach
  obtain ⟨f, hfind, -⟩ := hopens.exists_file
  exact hfault f.text (FileStore.read_of_find hfind)

end Lexicon

namespace Session

section

variable {files other : FileStore} {project : Project} {lex : Lexicon} {paths : List Path}

theorem loadLexicon_eq_ok_iff : loadLexicon files project = .ok (lex, paths) ↔
    ∃ order base, RuleOrder.load files project.changesPath = .ok order ∧
      Lexicon.load files project.lexiconPath = .ok base ∧ lex = base.withOrder order ∧
      paths = base.sources ++ [project.changesPath] := by
  rw [loadLexicon]
  simp only [bind_eq_ok_iff, pure, Except.pure, Except.ok.injEq, Prod.mk.injEq]
  constructor
  · rintro ⟨order, horder, base, hbase, rfl, rfl⟩
    exact ⟨order, base, horder, hbase, rfl, rfl⟩
  · rintro ⟨order, base, horder, hbase, rfl, rfl⟩
    exact ⟨order, horder, base, hbase, rfl, rfl⟩

/-- The reported files determine what is loaded, and that they are the ones to be reported. -/
theorem loadLexicon_congr (h : loadLexicon files project = .ok (lex, paths))
    (hdir : other.workDir = files.workDir) (hread : ∀ p ∈ paths, other.read p = files.read p) :
    loadLexicon other project = .ok (lex, paths) := by
  obtain ⟨order, base, horder, hbase, hlex, rfl⟩ := loadLexicon_eq_ok_iff.1 h
  obtain ⟨hsources, hchanges⟩ := List.forall_mem_append.1 hread
  refine loadLexicon_eq_ok_iff.2 ⟨order, base, ?_, Lexicon.load_congr hbase hdir hsources, hlex, rfl⟩
  rw [RuleOrder.load, hchanges _ (List.mem_singleton_self _)]
  exact horder

theorem readable_of_loadLexicon (h : loadLexicon files project = .ok (lex, paths)) :
    ∀ p ∈ paths, ∃ text, files.read p = .ok text := by
  obtain ⟨order, base, horder, hbase, -, rfl⟩ := loadLexicon_eq_ok_iff.1 h
  obtain ⟨text, hread, -⟩ := RuleOrder.load_eq_ok_iff.1 horder
  exact List.forall_mem_append.2
    ⟨Lexicon.readable_of_load hbase, List.forall_mem_singleton.2 ⟨text, hread⟩⟩

/-- Where the first reported file that is read differently cannot be read, nothing can be loaded. -/
theorem loadLexicon_ne_ok_of_unreadable {before after : List Path} {path : Path}
    (h : loadLexicon files project = .ok (lex, before ++ path :: after))
    (hdir : other.workDir = files.workDir) (hread : ∀ p ∈ before, other.read p = files.read p)
    (hfault : ∀ text, other.read path ≠ .ok text) (loaded : Lexicon × List Path) :
    loadLexicon other project ≠ .ok loaded := by
  intro hloaded
  obtain ⟨order, base, -, hbase, -, hpaths⟩ := loadLexicon_eq_ok_iff.1 h
  obtain ⟨order', base', horder', hbase', -⟩ := loadLexicon_eq_ok_iff.1 hloaded
  rcases List.eq_nil_or_concat after with rfl | ⟨after, last, rfl⟩
  · obtain ⟨-, rfl⟩ := List.append_singleton_inj.1 hpaths
    obtain ⟨text, htext, -⟩ := RuleOrder.load_eq_ok_iff.1 horder'
    exact hfault text htext
  · rw [List.concat_eq_append, ← List.cons_append, ← List.append_assoc] at hpaths
    obtain ⟨hsources, -⟩ := List.append_singleton_inj.1 hpaths
    exact Lexicon.load_ne_ok_of_unreadable hbase hdir hsources.symm hread hfault base' hbase'

end

end Session

/-! ## Keeping what was loaded -/

namespace PathCache

variable {files : FileStore} {stamps : List (Path × String)} {paths : List Path}

/-- Checking ends at the first file that cannot be checked, if all before it are unchanged. -/
theorem exists_of_unchanged_eq_error {e : Error} (h : unchanged files stamps = .error e) :
    ∃ before stamp after, stamps = before ++ stamp :: after ∧
      (∀ earlier ∈ before, files.checksum earlier.1 = .ok earlier.2) ∧
      files.checksum stamp.1 = .error e := by
  induction stamps with
  | nil => cases h
  | cons stamp rest ih =>
    rcases bind_eq_error_iff.1 h with hsum | ⟨hash, hsum, h⟩
    · exact ⟨[], stamp, rest, rfl, nofun, hsum⟩
    · by_cases heq : hash = stamp.2
      · rw [if_pos heq] at h
        obtain ⟨before, later, after, rfl, hbefore, hlater⟩ := ih h
        exact ⟨stamp :: before, later, after, rfl,
          List.forall_mem_cons.2 ⟨heq ▸ hsum, hbefore⟩, hlater⟩
      · rw [if_neg heq] at h
        cases h

theorem valid?_eq_error {α : Type} {cache : PathCache α} {applies : List (Path × String) → Bool}
    {e : Error} (h : cache.valid? files applies = .error e) :
    ∃ memo, cache = some memo ∧ unchanged files memo.stamps = .error e := by
  cases cache with
  | none => cases h
  | some memo =>
    rw [valid?] at h
    split at h
    · rcases bind_eq_error_iff.1 h with hsame | ⟨same, -, h⟩
      · exact ⟨memo, rfl, hsame⟩
      · cases same <;> cases h
    · cases h

theorem exists_stamp_eq_ok (h : ∀ p ∈ paths, ∃ text, files.read p = .ok text) :
    ∃ stamps, stamp files paths = .ok stamps := by
  refine exists_mapM_eq_ok_iff.2 fun p hp => ?_
  obtain ⟨text, hread⟩ := h p hp
  rw [FileStore.checksum_eq hread]
  exact ⟨_, rfl⟩

end PathCache

namespace Session

variable {σ : Type} {files : FileStore} {project : Project} {texts : Set String} {s : Session σ}
  {dir : Location} {lex : Lexicon}

/-- A kept lexicon was loaded from files in the same working directory, and its stamps were taken of
them. -/
def Grounded (texts : Set String) (dir : Location) (project : Project) (cache : PathCache Lexicon) :
    Prop :=
  ∀ memo, cache = some memo → ∃ taken : FileStore, taken.workDir = dir ∧ taken.Holds texts ∧
    loadLexicon taken project = .ok (memo.value, memo.paths) ∧
    ∀ stamp ∈ memo.stamps, taken.checksum stamp.1 = .ok stamp.2

theorem Grounded.load_of_unchanged {memo : Memo Lexicon} (hdigest : Set.InjOn textDigest texts)
    (hs : Grounded texts files.workDir project (some memo)) (hholds : files.Holds texts)
    (hsame : PathCache.unchanged files memo.stamps = .ok true) :
    loadLexicon files project = .ok (memo.value, memo.paths) := by
  obtain ⟨taken, hdir, htaken, hload, hsums⟩ := hs memo rfl
  refine loadLexicon_congr hload hdir.symm fun p hp => ?_
  obtain ⟨stamp, hstamp, rfl⟩ := List.mem_map.1 hp
  exact FileStore.read_eq_of_checksum_eq hdigest hholds htaken
    (PathCache.unchanged_eq_true_iff.1 hsame stamp hstamp) (hsums stamp hstamp)

/-- A check that fails comes to a file that loading would come to. -/
theorem Grounded.load_ne_ok_of_unchanged {memo : Memo Lexicon} {e : Error}
    (hdigest : Set.InjOn textDigest texts) (hs : Grounded texts files.workDir project (some memo))
    (hholds : files.Holds texts) (herror : PathCache.unchanged files memo.stamps = .error e)
    (loaded : Lexicon × List Path) : loadLexicon files project ≠ .ok loaded := by
  obtain ⟨taken, hdir, htaken, hload, hsums⟩ := hs memo rfl
  obtain ⟨before, stamp, after, hstamps, hbefore, hfault⟩ := PathCache.exists_of_unchanged_eq_error herror
  rw [Memo.paths, hstamps, List.map_append, List.map_cons] at hload
  refine loadLexicon_ne_ok_of_unreadable hload hdir.symm (fun p hp => ?_) (fun text hread => ?_) loaded
  · obtain ⟨earlier, hearlier, rfl⟩ := List.mem_map.1 hp
    exact FileStore.read_eq_of_checksum_eq hdigest hholds htaken (hbefore earlier hearlier)
      (hsums earlier (hstamps ▸ List.mem_append_left _ hearlier))
  · rw [FileStore.checksum_eq hread] at hfault
    cases hfault

/-- The kept lexicon, or a loaded one that is kept from then on with the stamps of its files. -/
theorem result_currentLexicon (files : FileStore) (s : Session σ) :
    (currentLexicon files).result s =
      match s.lexicon.valid? files (fun _ => true) with
      | .error e => (.error e, s)
      | .ok (some lex) => (.ok lex, s)
      | .ok none =>
        match loadLexicon files s.project with
        | .error e => (.error e, s)
        | .ok (lex, paths) =>
          match PathCache.stamp files paths with
          | .error e => (.error e, s)
          | .ok stamps => (.ok lex, { s with lexicon := some ⟨stamps, lex⟩ }) := by
  rw [currentLexicon, Action.result_bind_get, Action.result_bind, PathCache.getTracked,
    PathCache.getWith, Action.result_bind_get, Action.result_bind, Action.result_ofExcept]
  rcases s.lexicon.valid? files fun _ => true with e | _ | kept
  · rfl
  · dsimp only
    rw [Action.result_bind, Action.result_ofExcept]
    rcases loadLexicon files s.project with e | ⟨lex, paths⟩
    · rfl
    · dsimp only
      rw [Action.result_bind_get, Action.result_bind, Action.result_ofExcept]
      cases PathCache.stamp files paths <;> rfl
  · rfl

/-- The current lexicon is the one that would be loaded, and there is none exactly if none can be
loaded. Nothing but the cache changes, and that stays grounded. -/
theorem currentLexicon_cases (hdigest : Set.InjOn textDigest texts) (hholds : files.Holds texts)
    (hs : Grounded texts files.workDir s.project s.lexicon) :
    (∃ lex paths cache, loadLexicon files s.project = .ok (lex, paths) ∧
      (currentLexicon files).result s = (.ok lex, { s with lexicon := cache }) ∧
      Grounded texts files.workDir s.project cache) ∨
    ∃ e e', loadLexicon files s.project = .error e ∧
      (currentLexicon files).result s = (.error e', s) := by
  rw [result_currentLexicon]
  rcases hvalid : s.lexicon.valid? files (fun _ => true) with e | _ | lex
  · obtain ⟨memo, hmemo, herror⟩ := PathCache.valid?_eq_error hvalid
    rw [hmemo] at hs
    cases hload : loadLexicon files s.project with
    | error e' => exact .inr ⟨e', e, rfl, rfl⟩
    | ok loaded => exact absurd hload (hs.load_ne_ok_of_unchanged hdigest hholds herror loaded)
  · cases hload : loadLexicon files s.project with
    | error e => exact .inr ⟨e, e, rfl, rfl⟩
    | ok loaded =>
      obtain ⟨lex, paths⟩ := loaded
      obtain ⟨stamps, hstamps⟩ := PathCache.exists_stamp_eq_ok (readable_of_loadLexicon hload)
      obtain ⟨hpaths, hsums⟩ := PathCache.stamp_eq_ok hstamps
      refine .inl ⟨lex, paths, some ⟨stamps, lex⟩, rfl, by simp only [hstamps], fun memo hmemo => ?_⟩
      rw [Option.some.injEq] at hmemo
      subst hmemo
      refine ⟨files, rfl, hholds, ?_, hsums⟩
      rw [Memo.paths, hpaths]
      exact hload
  · obtain ⟨memo, hmemo, rfl, hsame⟩ := PathCache.valid?_eq_some hvalid
    rw [hmemo] at hs
    exact .inl ⟨memo.value, memo.paths, s.lexicon, hs.load_of_unchanged hdigest hholds hsame, rfl,
      hmemo ▸ hs⟩

/-- A lexicon that is current is the one that would be loaded. -/
theorem load_of_currentLexicon {t : Session σ} (hdigest : Set.InjOn textDigest texts)
    (hholds : files.Holds texts) (hs : Grounded texts files.workDir s.project s.lexicon)
    (h : (currentLexicon files).result s = (.ok lex, t)) :
    ∃ paths cache, loadLexicon files s.project = .ok (lex, paths) ∧ t = { s with lexicon := cache } ∧
      Grounded texts files.workDir s.project cache := by
  rcases currentLexicon_cases hdigest hholds hs with
    ⟨lex', paths, cache, hload, hresult, hcache⟩ | ⟨e, e', -, hresult⟩
  · obtain ⟨⟨⟩, rfl⟩ := Prod.mk.inj (hresult.symm.trans h)
    exact ⟨paths, cache, hload, rfl, hcache⟩
  · cases hresult.symm.trans h

/-- A lexicon that would be loaded is the current one, to every session of the project. -/
theorem currentLexicon_of_load {paths : List Path} (hdigest : Set.InjOn textDigest texts)
    (hholds : files.Holds texts) (hs : Grounded texts files.workDir s.project s.lexicon)
    (h : loadLexicon files s.project = .ok (lex, paths)) :
    ∃ cache, (currentLexicon files).result s = (.ok lex, { s with lexicon := cache }) ∧
      Grounded texts files.workDir s.project cache := by
  rcases currentLexicon_cases hdigest hholds hs with
    ⟨lex', paths', cache, hload, hresult, hcache⟩ | ⟨e, e', hload, -⟩
  · obtain ⟨rfl, -⟩ := Prod.mk.inj (Except.ok.inj (hload.symm.trans h))
    exact ⟨cache, hresult, hcache⟩
  · cases hload.symm.trans h

/-! ## Calls -/

/-- What can be asked of a session. -/
inductive Request where
  | lexicon
  | resolve (text : String)
  | evolve (text : String)
  | trace (text : String)
  | lookup (text : String)
  | entries
  | inflect (text : String)

/-- The call for a request, without what it tells. -/
def Request.call (engine : Engine σ) (files : FileStore) : Request → Action (Session σ) Unit
  | .lexicon => do let _ ← currentLexicon files
  | .resolve text => do let _ ← Session.resolve files text
  | .evolve text => do let _ ← Session.evolve engine files text
  | .trace text => do let _ ← Session.trace engine files text
  | .lookup text => do let _ ← Session.lookup files text
  | .entries => do let _ ← Session.entries files
  | .inflect text => do let _ ← Session.inflect engine files text

/-- The session is of the project, and its lexicon is grounded. -/
structure IsGrounded (texts : Set String) (dir : Location) (project : Project) (s : Session σ) :
    Prop where
  belongs : s.project = project
  grounded : Grounded texts dir project s.lexicon

section

open Etymon.Action

theorem preserves_currentLexicon (hdigest : Set.InjOn textDigest texts) (hholds : files.Holds texts)
    (project : Project) :
    Preserves (IsGrounded texts files.workDir project) (currentLexicon (σ := σ) files) := by
  rintro s ⟨rfl, hs⟩
  rcases currentLexicon_cases hdigest hholds hs with
    ⟨lex, paths, cache, -, hresult, hcache⟩ | ⟨e, e', -, hresult⟩
  · rw [hresult]
    exact ⟨rfl, hcache⟩
  · rw [hresult]
    exact ⟨rfl, hs⟩

theorem preserves_resolve {P : Session σ → Prop} (hlexicon : Preserves P (currentLexicon files))
    (text : String) : Preserves P (Session.resolve files text) :=
  preserves_bind (preserves_ofExcept _) fun _ => preserves_bind hlexicon fun _ =>
    preserves_get_bind fun _ => preserves_ofExcept _

theorem currentLexicon_of_resolve {s t : Session σ} {text : String} {forms : List Form}
    (h : (Session.resolve files text).result s = (.ok forms, t)) :
    ∃ lex u, (currentLexicon files).result s = (.ok lex, u) := by
  simp only [Session.resolve, readSentence, Action.result_bind_eq_ok_iff,
    Action.result_ofExcept_eq_ok_iff] at h
  obtain ⟨sentence, _, ⟨-, rfl⟩, lex, u, hlex, -⟩ := h
  exact ⟨lex, u, hlex⟩

/-- Requests keep what loading the lexicon keeps and what the calls of the evolver do. The evolver is
called only where the lexicon could be loaded. -/
theorem preserves_call_of {P : Session σ → Prop} {loads : Prop} {engine : Engine σ}
    (hlexicon : Preserves P (currentLexicon files))
    (hloads : ∀ s lex t, P s → (currentLexicon files).result s = (.ok lex, t) → loads)
    (hevolve : loads → ∀ inputs, Preserves P (onEvolver (Evolver.evolve engine files inputs)))
    (htrace : loads → ∀ inputs, Preserves P (onEvolver (Evolver.trace engine files inputs)))
    (request : Request) : Preserves P (request.call engine files) := by
  have hresolve := preserves_resolve hlexicon
  have hresolved : ∀ {text : String} (s : Session σ) forms t, P s →
      (Session.resolve files text).result s = (.ok forms, t) → loads := by
    intro text s forms t hs h
    obtain ⟨lex, u, hlex⟩ := currentLexicon_of_resolve h
    exact hloads s lex u hs hlex
  have hscope : ∀ sentence, Preserves P (scopeOf sentence) := fun _ =>
    preserves_get_bind fun _ => preserves_pure _
  cases request with
  | lexicon => exact preserves_bind hlexicon fun _ => preserves_pure _
  | resolve text => exact preserves_bind (hresolve text) fun _ => preserves_pure _
  | evolve text =>
    exact preserves_bind (preserves_bind_of_ok (hresolve text) hresolved fun h _ => hevolve h _)
      fun _ => preserves_pure _
  | trace text =>
    exact preserves_bind (preserves_bind_of_ok (hresolve text) hresolved fun h _ => htrace h _)
      fun _ => preserves_pure _
  | lookup text =>
    refine preserves_bind (preserves_bind (preserves_ofExcept _) fun sentence => ?_) fun _ =>
      preserves_pure _
    exact preserves_bind (hscope sentence) fun _ => preserves_bind hlexicon fun _ =>
      preserves_bind (preserves_ofExcept _) fun _ => preserves_pure _
  | entries =>
    exact preserves_bind (preserves_bind hlexicon fun _ => preserves_pure _) fun _ =>
      preserves_pure _
  | inflect text =>
    refine preserves_bind (preserves_bind (preserves_ofExcept _) fun sentence => ?_) fun _ =>
      preserves_pure _
    exact preserves_bind (hscope sentence) fun _ => preserves_bind_of_ok hlexicon hloads fun h _ =>
      preserves_bind (preserves_ofExcept _) fun _ =>
        preserves_bind (hevolve h _) fun _ => preserves_pure _

/-- No request leaves a lexicon behind that was not loaded. -/
theorem preserves_call (engine : Engine σ) (hdigest : Set.InjOn textDigest texts)
    (hholds : files.Holds texts) (request : Request) :
    Preserves (IsGrounded texts files.workDir project) (request.call engine files) :=
  preserves_call_of (preserves_currentLexicon hdigest hholds project) (fun _ _ _ _ _ => trivial)
    (fun _ _ _ hs => ⟨hs.belongs, hs.grounded⟩) (fun _ _ _ hs => ⟨hs.belongs, hs.grounded⟩) request

end

/-! ## Histories -/

/-- A session with the files of its project. -/
structure Desk (σ : Type) where
  files : FileStore
  session : Session σ

namespace Desk

variable {engine : Engine σ} {d : Desk σ}

/-- What can happen: any edit that leaves the working directory where it is, a request, and saving the
caches. All texts that files ever have are among the given ones. -/
inductive Step (engine : Engine σ) (texts : Set String) : Desk σ → Desk σ → Prop
  | edit (d : Desk σ) (files : FileStore) (hdir : files.workDir = d.files.workDir)
      (hholds : files.Holds texts) : Step engine texts d { d with files }
  | call (d : Desk σ) (request : Request) :
      Step engine texts d ⟨d.files, ((request.call engine d.files).result d.session).2⟩
  | flush (d : Desk σ) (hholds : (d.session.flush d.files).2.1.Holds texts) :
      Step engine texts d ⟨(d.session.flush d.files).2.1, (d.session.flush d.files).2.2⟩

/-- What a history leads to that begins with opening the project. -/
inductive Reached (engine : Engine σ) (texts : Set String) (project : Project) : Desk σ → Prop
  | opened (files : FileStore) (metadata : Metadata) (state : σ) (hholds : files.Holds texts) :
      Reached engine texts project ⟨files, .opened files project metadata state⟩
  | step {d d' : Desk σ} (hd : Reached engine texts project d) (hstep : Step engine texts d d') :
      Reached engine texts project d'

/-- Files have known texts, and the session is grounded. -/
structure Upheld (texts : Set String) (project : Project) (d : Desk σ) : Prop where
  holds : d.files.Holds texts
  session : IsGrounded texts d.files.workDir project d.session

theorem Upheld.step {d' : Desk σ} (hdigest : Set.InjOn textDigest texts) (hd : d.Upheld texts project)
    (hstep : Step engine texts d d') : d'.Upheld texts project := by
  cases hstep with
  | edit files hdir hholds =>
    refine ⟨hholds, ?_⟩
    dsimp only
    rw [hdir]
    exact hd.session
  | call request =>
    exact ⟨hd.holds, preserves_call engine hdigest hd.holds request d.session hd.session⟩
  | flush hholds =>
    have hdir : (d.session.flush d.files).2.1.workDir = d.files.workDir :=
      d.session.evolver.workDir_flush d.files
    refine ⟨hholds, hd.session.belongs, ?_⟩
    dsimp only
    rw [hdir]
    exact hd.session.grounded

theorem upheld_of_reached (hdigest : Set.InjOn textDigest texts)
    (hd : d.Reached engine texts project) : d.Upheld texts project := by
  induction hd with
  | opened files metadata state hholds => exact ⟨hholds, rfl, nofun⟩
  | step _ hstep ih => exact ih.step hdigest hstep

end Desk

/-! ## What is answered -/

section

variable {cache : PathCache Lexicon}

theorem fst_result_resolve
    (h : (currentLexicon files).result s = (.ok lex, { s with lexicon := cache })) (text : String) :
    ((Session.resolve files text).result s).1 = (do
      let sentence ← Sentence.parse text
      lex.resolveSentence sentence s.metadata.defaultScope) := by
  rw [Session.resolve, readSentence, Action.result_bind, Action.result_ofExcept]
  cases Sentence.parse text with
  | error e => rfl
  | ok sentence =>
    dsimp only
    rw [Action.result_bind_ok h, Action.result_bind_get, Action.result_ofExcept]
    rfl

theorem fst_result_lookup
    (h : (currentLexicon files).result s = (.ok lex, { s with lexicon := cache })) (text : String) :
    ((Session.lookup files text).result s).1 = (do
      let sentence ← Sentence.parse text
      let found ← sentence.words.mapM fun w =>
        lex.describe w (sentence.scopeOr s.metadata.defaultScope)
      return firstOfEach found.flatten) := by
  rw [Session.lookup, readSentence, Action.result_bind, Action.result_ofExcept]
  cases Sentence.parse text with
  | error e => rfl
  | ok sentence =>
    have hscope : (scopeOf sentence).result s =
        (.ok (sentence.scopeOr s.metadata.defaultScope), s) := rfl
    dsimp only
    rw [Action.result_bind_ok hscope, Action.result_bind_ok h, Action.result_bind,
      Action.result_ofExcept]
    change _ = sentence.words.mapM (fun w => lex.describe w _) >>= _
    cases sentence.words.mapM fun w =>
      lex.describe w (sentence.scopeOr s.metadata.defaultScope) <;> rfl

theorem fst_result_entries
    (h : (currentLexicon files).result s = (.ok lex, { s with lexicon := cache })) :
    ((Session.entries files).result s).1 =
      .ok (lex.entries.map fun (key, e) => (nameOf key.1 e, e.description)) := by
  rw [Session.entries, Action.result_bind_ok h]
  rfl

end

/-- After any history of edits and calls, there is a current lexicon exactly if the rule file and the
lexicon can be loaded as they are now, and it is what is loaded. So every sentence is resolved and every
name is looked up as in a lexicon that is read for this purpose. -/
theorem current_as_loaded {engine : Engine σ} {d : Desk σ} (hdigest : Set.InjOn textDigest texts)
    (hd : d.Reached engine texts project) :
    ((∃ lex, ((currentLexicon d.files).result d.session).1 = .ok lex) ↔
      (∃ order, RuleOrder.load d.files project.changesPath = .ok order) ∧
        ∃ base, Lexicon.load d.files project.lexiconPath = .ok base) ∧
    ∀ order base, RuleOrder.load d.files project.changesPath = .ok order →
      Lexicon.load d.files project.lexiconPath = .ok base →
      ((currentLexicon d.files).result d.session).1 = .ok (base.withOrder order) ∧
      (∀ text, ((Session.resolve d.files text).result d.session).1 = do
        let sentence ← Sentence.parse text
        (base.withOrder order).resolveSentence sentence d.session.metadata.defaultScope) ∧
      (∀ text, ((Session.lookup d.files text).result d.session).1 = do
        let sentence ← Sentence.parse text
        let found ← sentence.words.mapM fun w =>
          (base.withOrder order).describe w (sentence.scopeOr d.session.metadata.defaultScope)
        return firstOfEach found.flatten) ∧
      ((Session.entries d.files).result d.session).1 =
        .ok ((base.withOrder order).entries.map fun (key, e) => (nameOf key.1 e, e.description)) := by
  obtain ⟨hholds, rfl, hgrounded⟩ := Desk.upheld_of_reached hdigest hd
  rcases currentLexicon_cases hdigest hholds hgrounded with
    ⟨lex, paths, cache, hload, hresult, -⟩ | ⟨e, e', hload, hresult⟩
  · obtain ⟨order, base, horder, hbase, rfl, -⟩ := loadLexicon_eq_ok_iff.1 hload
    refine ⟨⟨fun _ => ⟨⟨order, horder⟩, base, hbase⟩, fun _ => ⟨_, by rw [hresult]⟩⟩, ?_⟩
    intro order' base' horder' hbase'
    obtain rfl := Except.ok.inj (horder.symm.trans horder')
    obtain rfl := Except.ok.inj (hbase.symm.trans hbase')
    exact ⟨by rw [hresult], fst_result_resolve hresult, fst_result_lookup hresult,
      fst_result_entries hresult⟩
  · have hnone : ∀ order base,
        RuleOrder.load d.files d.session.project.changesPath = .ok order →
          Lexicon.load d.files d.session.project.lexiconPath ≠ .ok base := by
      intro order base horder hbase
      have hok := loadLexicon_eq_ok_iff.2 ⟨order, base, horder, hbase, rfl, rfl⟩
      rw [hload] at hok
      cases hok
    refine ⟨⟨?_, ?_⟩, fun order base horder hbase => absurd hbase (hnone order base horder)⟩
    · rintro ⟨lex, hlex⟩
      rw [hresult] at hlex
      cases hlex
    · rintro ⟨⟨order, horder⟩, base, hbase⟩
      exact absurd hbase (hnone order base horder)

/-! ### A file that is lost and written anew -/

def includingText : String :=
  "include \"inc.pycl\"\n"

def stoneText : String :=
  "entry <stone> *ata (n.) a stone\n"

def rockText : String :=
  "entry <rock> *ata (n.) a rock\n"

def includingTexts : List String :=
  [voicingText, includingText, stoneText, rockText]

/-- A project whose lexicon includes a file, which is there or not. -/
def includingFiles (included : Option String) : FileStore where
  workDir := ["work"]
  nodes :=
    (["work"], .directory 0) :: (["work", "changes.lsc"], .file ⟨voicingText, 0, false⟩) ::
      (["work", "lexicon.pycl"], .file ⟨includingText, 0, false⟩) ::
        (included.map fun text => (["work", "inc.pycl"], .file ⟨text, 0, false⟩)).toList
  clock := 1

theorem holds_includingFiles {included : Option String}
    (h : ∀ text, included = some text → text ∈ includingTexts) :
    (includingFiles included).Holds {text | text ∈ includingTexts} := by
  refine FileStore.holds_of_nodes fun l f hnode => ?_
  simp only [includingFiles, List.mem_cons, Prod.mk.injEq, reduceCtorEq, and_false, false_or,
    Node.file.injEq, Option.mem_toList, Option.map_eq_some_iff] at hnode
  rcases hnode with ⟨-, rfl⟩ | ⟨-, rfl⟩ | ⟨text, hsome, -, rfl⟩
  · simp [includingTexts]
  · simp [includingTexts]
  · exact h text hsome

set_option maxRecDepth 100000 in
theorem injOn_includingTexts : Set.InjOn textDigest {text | text ∈ includingTexts} := by
  have hnodup : (includingTexts.map textDigest).Nodup := by decide +kernel
  exact fun text htext text' htext' h => List.inj_on_of_nodup_map hnodup htext htext' h

/-- While the file is lost there is no lexicon, although one is kept; then there is that of the new
file. -/
theorem current_as_loaded_rewritten : ∃ d d' : Desk (Option String),
    d.Reached (.ofLaw voicing ⟨"changes.lsc"⟩) {text | text ∈ includingTexts} ⟨⟨""⟩⟩ ∧
    d'.Reached (.ofLaw voicing ⟨"changes.lsc"⟩) {text | text ∈ includingTexts} ⟨⟨""⟩⟩ ∧
    (¬ ∃ lex, ((currentLexicon d.files).result d.session).1 = .ok lex) ∧
    ((Session.entries d'.files).result d'.session).1 = .ok [(⟨"rock", none⟩, "(n.) a rock")] := by
  have hstone : (includingFiles (some stoneText)).Holds {text | text ∈ includingTexts} :=
    holds_includingFiles fun text h => by simp [← Option.some.inj h, includingTexts]
  have hrock : (includingFiles (some rockText)).Holds {text | text ∈ includingTexts} :=
    holds_includingFiles fun text h => by simp [← Option.some.inj h, includingTexts]
  have hlost : (includingFiles none).Holds {text | text ∈ includingTexts} :=
    holds_includingFiles nofun
  have hopened : Desk.Reached (.ofLaw voicing ⟨"changes.lsc"⟩) {text | text ∈ includingTexts} ⟨⟨""⟩⟩
      ⟨_, .opened (includingFiles (some stoneText)) ⟨⟨""⟩⟩ ⟨"", "", true, none, none⟩ none⟩ :=
    .opened _ _ _ hstone
  have hkept := hopened.step (.call _ .lexicon)
  have hwithout := hkept.step (.edit _ (includingFiles none) rfl hlost)
  have hrefused := hwithout.step (.call _ .lexicon)
  have hwritten := hrefused.step (.edit _ (includingFiles (some rockText)) rfl hrock)
  refine ⟨_, _, hwithout, hwritten, fun hcurrent => ?_, ?_⟩
  · obtain ⟨-, base, hbase⟩ := (current_as_loaded injOn_includingTexts hwithout).1.1 hcurrent
    have hfails : (Lexicon.load (includingFiles none) (Project.lexiconPath ⟨⟨""⟩⟩)).toBool = false := by
      decide +kernel
    rw [hbase] at hfails
    cases hfails
  · have hentries : (Lexicon.load (includingFiles (some rockText)) (Project.lexiconPath ⟨⟨""⟩⟩)).map
        (fun base => base.entries.map fun (key, e) => (nameOf key.1 e, e.description)) =
          .ok [(⟨"rock", none⟩, "(n.) a rock")] := by
      decide +kernel
    have horder : RuleOrder.load (includingFiles (some rockText)) (Project.changesPath ⟨⟨""⟩⟩) =
        .ok (.parse voicingText) := by
      have hread : (includingFiles (some rockText)).read (Project.changesPath ⟨⟨""⟩⟩) =
          .ok voicingText := by decide +kernel
      exact RuleOrder.load_eq_ok_iff.2 ⟨_, hread, rfl⟩
    rcases hbase : Lexicon.load (includingFiles (some rockText)) (Project.lexiconPath ⟨⟨""⟩⟩) with
      e | base
    · rw [hbase] at hentries
      cases hentries
    · rw [hbase] at hentries
      obtain ⟨-, -, -, htold⟩ :=
        (current_as_loaded injOn_includingTexts hwritten).2 _ base horder hbase
      exact htold.trans hentries

end Session

end Etymon
