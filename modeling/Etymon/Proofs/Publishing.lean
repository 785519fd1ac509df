import Etymon.Book
import Etymon.Proofs.Pages

/-!
# Publishing a book

A page is kept with the stamps of the files that it depends on, and is rendered again when one of them
has changed. Between two renderings nothing that the page depends on can change without being noticed,
and nothing else touches the page or what the evolver has settled. So a page that is not refreshed is the
one that compiling would write, with two exceptions: the files that a lexicon is read from are no
dependencies when it cannot be loaded, and a page may be kept that could not be written.

## Main definitions

* `Book.Shelf`: a press, and where its page comes from.
* `Book.Shelf.Reached`: what a history of edits and refreshes leads to.
* `Book.Shelf.Refreshes`: how a refresh can go.
* `Book.Shelf.IsOf`: a page with the files that it was rendered from.
* `Book.Shelf.Compiles`: compiling writes a given page.

## Main results

* `Book.Shelf.Upheld.refreshed`: every refresh keeps the page with its files.
* `Book.Shelf.refreshed_as_compiled`: the refreshed page is the compiled one.
-/

namespace Etymon.Book

variable {σ : Type} {toHtml : String → String} {engine : Engine σ} {laws : String → Law}
  {running : σ → Option String} {texts : Set String} {project : Project} {metadata : Metadata}

/-- Which files the kept page was rendered from, and whether it was written then. -/
structure Edition where
  taken : FileStore
  written : Bool

/-- A press with the edition of its page. -/
structure Shelf (σ : Type) where
  press : Press σ
  edition : Option Edition

namespace Shelf

abbrev workspace (s : Shelf σ) : Workspace σ := s.press.workspace

abbrev files (s : Shelf σ) : FileStore := s.workspace.files

/-- The shelf after a refresh. A page that was rendered is an edition of its own, whether or not it could
be written. -/
def after (toHtml : String → String) (engine : Engine σ) (s : Shelf σ) : Shelf σ where
  press := ((refreshWith toHtml engine).result s.press).2
  edition :=
    match s.press.built.isFresh s.files,
      (s.press.built.getTracked Workspace.files (renderWith toHtml engine)).result s.workspace with
    | .ok false, (.ok (text, _), w) =>
      some ⟨s.files, (w.files.write w.session.project.pagePath text).toBool⟩
    | _, _ => s.edition

/-- How a refresh goes. -/
inductive Refreshes (toHtml : String → String) (engine : Engine σ) (s : Shelf σ) :
    Except Error Bool → Shelf σ → Prop
  | unchecked {e : Error} (hcheck : s.press.built.isFresh s.files = .error e) :
      Refreshes toHtml engine s (.error e) s
  | fresh (hcheck : s.press.built.isFresh s.files = .ok true) : Refreshes toHtml engine s (.ok false) s
  | unrendered {e : Error} {w : Workspace σ} (hcheck : s.press.built.isFresh s.files = .ok false)
      (hrender : (renderWith toHtml engine).result s.workspace = (.error e, w)) :
      Refreshes toHtml engine s (.error e) ⟨⟨w, s.press.built⟩, s.edition⟩
  | unstamped {text : String} {paths : List Path} {e : Error} {w : Workspace σ}
      (hcheck : s.press.built.isFresh s.files = .ok false)
      (hrender : (renderWith toHtml engine).result s.workspace = (.ok (text, paths), w))
      (hstamp : PathCache.stamp w.files paths = .error e) :
      Refreshes toHtml engine s (.error e) ⟨⟨w, s.press.built⟩, s.edition⟩
  | unwritten {text : String} {paths : List Path} {stamps : List (Path × String)} {fault : IoFault}
      {w : Workspace σ} (hcheck : s.press.built.isFresh s.files = .ok false)
      (hrender : (renderWith toHtml engine).result s.workspace = (.ok (text, paths), w))
      (hstamp : PathCache.stamp w.files paths = .ok stamps)
      (hwrite : w.files.write w.session.project.pagePath text = .error fault) :
      Refreshes toHtml engine s (.error (.io w.session.project.pagePath fault))
        ⟨⟨w, some ⟨stamps, text⟩⟩, some ⟨s.files, false⟩⟩
  | written {text : String} {paths : List Path} {stamps : List (Path × String)} {files : FileStore}
      {outcome : Except Error Unit} {w w' : Workspace σ}
      (hcheck : s.press.built.isFresh s.files = .ok false)
      (hrender : (renderWith toHtml engine).result s.workspace = (.ok (text, paths), w))
      (hstamp : PathCache.stamp w.files paths = .ok stamps)
      (hwrite : w.files.write w.session.project.pagePath text = .ok files)
      (hflush : Workspace.flush.result { w with files } = (outcome, w')) :
      Refreshes toHtml engine s (outcome.map fun _ => true)
        ⟨⟨w', some ⟨stamps, text⟩⟩, some ⟨s.files, true⟩⟩

theorem result_onWorkspace {α : Type} (act : Action (Workspace σ) α) (p : Press σ) :
    (onWorkspace act).result p =
      ((act.result p.workspace).1, { p with workspace := (act.result p.workspace).2 }) :=
  rfl

theorem valid?_of_isFresh {α : Type} {cache : PathCache α} {files : FileStore}
    (h : cache.isFresh files = .ok false) : cache.valid? files (fun _ => true) = .ok none := by
  cases cache with
  | none => rfl
  | some memo =>
    rw [PathCache.isFresh] at h
    rw [PathCache.valid?, if_pos rfl, h]
    rfl

theorem result_getTracked (toHtml : String → String) (engine : Engine σ) {s : Shelf σ}
    (hcheck : s.press.built.isFresh s.files = .ok false) :
    (s.press.built.getTracked Workspace.files (renderWith toHtml engine)).result s.workspace =
      match (renderWith toHtml engine).result s.workspace with
      | (.error e, w) => (.error e, w)
      | (.ok (text, paths), w) =>
        match PathCache.stamp w.files paths with
        | .error e => (.error e, w)
        | .ok stamps => (.ok (text, some ⟨stamps, text⟩), w) := by
  rw [PathCache.getTracked, PathCache.getWith, Action.result_bind_get, Action.result_bind,
    Action.result_ofExcept, ← files, valid?_of_isFresh hcheck]
  dsimp only
  rw [Action.result_bind]
  rcases (renderWith toHtml engine).result s.workspace with ⟨e | ⟨text, paths⟩, w⟩
  · rfl
  · dsimp only
    rw [Action.result_bind_get, Action.result_bind, Action.result_ofExcept]
    cases PathCache.stamp w.files paths <;> rfl

theorem refreshes (toHtml : String → String) (engine : Engine σ) (s : Shelf σ) :
    Refreshes toHtml engine s ((refreshWith toHtml engine).result s.press).1 (s.after toHtml engine) := by
  rw [after]
  have hisFresh : isFresh.result s.press = (s.press.built.isFresh s.files, s.press) := rfl
  rw [refreshWith, Action.result_bind, hisFresh]
  rcases hcheck : s.press.built.isFresh s.files with e | _ | _
  · exact .unchecked hcheck
  · have hget := result_getTracked toHtml engine hcheck
    dsimp only
    rw [if_neg (by simp), Action.result_bind_get, Action.result_bind, result_onWorkspace]
    rcases hrender : (renderWith toHtml engine).result s.workspace with ⟨e | ⟨text, paths⟩, w⟩
    · rw [hrender] at hget
      rw [hget]
      exact .unrendered hcheck hrender
    rw [hrender] at hget
    dsimp only at hget
    cases hstamp : PathCache.stamp w.files paths with
    | error e =>
      rw [hstamp] at hget
      rw [hget]
      exact .unstamped hcheck hrender hstamp
    | ok stamps =>
      rw [hstamp] at hget
      rw [hget]
      dsimp only
      rw [Action.result_bind_modify, Action.result_bind, result_onWorkspace, writePage,
        Action.result_ofFunction]
      dsimp only
      cases hwrite : w.files.write w.session.project.pagePath text with
      | error fault => exact .unwritten hcheck hrender hstamp hwrite
      | ok files =>
        dsimp only
        rw [Action.result_bind, result_onWorkspace]
        rcases hflush : Workspace.flush.result { w with files } with ⟨outcome, w'⟩
        have hwritten := Refreshes.written hcheck hrender hstamp hwrite hflush
        cases outcome <;> exact hwritten
  · exact .fresh hcheck

/-! ## Histories -/

/-- What can happen: any edit that leaves the page and the working directory as they are, and a refresh.
All texts that files ever have are among the given ones. -/
inductive Step (toHtml : String → String) (engine : Engine σ) (texts : Set String)
    (project : Project) : Shelf σ → Shelf σ → Prop
  | edit (s : Shelf σ) (files : FileStore) (hdir : files.workDir = s.files.workDir)
      (hholds : files.Holds texts)
      (hpage : files.read project.pagePath = s.files.read project.pagePath) :
      Step toHtml engine texts project s
        ⟨{ s.press with workspace := { s.workspace with files } }, s.edition⟩
  | refresh (s : Shelf σ) (hholds : (s.after toHtml engine).files.Holds texts) :
      Step toHtml engine texts project s (s.after toHtml engine)

/-- What a history leads to that begins with opening the project. -/
inductive Reached (toHtml : String → String) (engine : Engine σ) (running : σ → Option String)
    (texts : Set String) (project : Project) (metadata : Metadata) : Shelf σ → Prop
  | opened (files : FileStore) (state : σ) (reports : List String) (hholds : files.Holds texts)
      (hidle : running state = none) : Reached toHtml engine running texts project metadata
        ⟨⟨⟨files, .opened files project metadata state, reports⟩, none⟩, none⟩
  | step {s s' : Shelf σ} (hs : Reached toHtml engine running texts project metadata s)
      (hstep : Step toHtml engine texts project s s') :
      Reached toHtml engine running texts project metadata s'

/-- The page was rendered from the files of its edition, and its stamps were taken of them. It is the
page of the book if it was written. -/
structure IsOf (toHtml : String → String) (laws : String → Law) (texts : Set String)
    (project : Project) (metadata : Metadata) (w : Workspace σ) (memo : Memo String)
    (edition : Edition) : Prop where
  workDir : edition.taken.workDir = w.files.workDir
  holds : edition.taken.Holds texts
  paths : memo.paths = dependencies project
    ((Session.loadLexicon edition.taken project).toOption.elim [] (·.1.sources))
  stamps : ∀ stamp ∈ memo.stamps, edition.taken.checksum stamp.1 = .ok stamp.2
  prints : ∃ rules, Session.Governs rules edition.taken project ∧
    Prints toHtml (laws rules) rules edition.taken project metadata w.session.evolver memo.value
  written : edition.written = true → w.files.read project.pagePath = .ok memo.value

structure Upheld (toHtml : String → String) (laws : String → Law) (running : σ → Option String)
    (texts : Set String) (project : Project) (metadata : Metadata) (s : Shelf σ) : Prop where
  holds : s.files.Holds texts
  session : s.workspace.session.InOrder running texts s.files.workDir project metadata
  edition : ∀ memo, s.press.built = some memo → ∃ edition, s.edition = some edition ∧
    IsOf toHtml laws texts project metadata s.workspace memo edition

variable {s s' : Shelf σ}

theorem upheld_opened {files : FileStore} {state : σ} {reports : List String}
    (hholds : files.Holds texts) (hidle : running state = none) :
    Upheld toHtml laws running texts project metadata
      ⟨⟨⟨files, .opened files project metadata state, reports⟩, none⟩, none⟩ := by
  obtain ⟨hpath, -⟩ := PersistentCache.alike_load Query.codec Evolved.codec files
    (Evolver.evolvedFile project.cacheDir) [project.changesPath] (Evolver.settings metadata.syllables)
  obtain ⟨hpath', -⟩ := PersistentCache.alike_load Query.codec TraceLine.codec files
    (Evolver.tracesFile project.cacheDir) [project.changesPath] (Evolver.settings metadata.syllables)
  exact ⟨hholds, ⟨⟨rfl, nofun⟩, rfl, Evolver.ready_opened _ _ _ hidle _, hpath, hpath'⟩, nofun⟩

theorem Upheld.edit (hs : s.Upheld toHtml laws running texts project metadata) {files : FileStore}
    (hdir : files.workDir = s.files.workDir) (hholds : files.Holds texts)
    (hpage : files.read project.pagePath = s.files.read project.pagePath) :
    Upheld toHtml laws running texts project metadata
      ⟨{ s.press with workspace := { s.workspace with files } }, s.edition⟩ := by
  refine ⟨hholds, ?_, fun memo hmemo => ?_⟩
  · change s.workspace.session.InOrder running texts files.workDir project metadata
    rw [hdir]
    exact hs.session
  · obtain ⟨edition, hedition, hof⟩ := hs.edition memo hmemo
    exact ⟨edition, hedition, hof.workDir.trans hdir.symm, hof.holds, hof.paths, hof.stamps, hof.prints,
      fun hwritten => hpage.trans (hof.written hwritten)⟩

/-- The page and the files of the caches lie in different places. -/
theorem target_pagePath_ne (files : FileStore) (project : Project) :
    files.target project.pagePath ≠ files.target (Evolver.evolvedFile project.cacheDir) ∧
      files.target project.pagePath ≠ files.target (Evolver.tracesFile project.cacheDir) := by
  obtain ⟨l, hl⟩ := files.exists_target_child project.root
  obtain ⟨l', hl'⟩ := files.exists_target_child project.cacheDir
  rw [Evolver.evolvedFile, Evolver.tracesFile, Project.pagePath,
    hl "book.html" ⟨by decide, by decide, by decide⟩,
    hl' "evolve-cache.cache" ⟨by decide, by decide, by decide⟩,
    hl' "trace-cache.cache" ⟨by decide, by decide, by decide⟩]
  constructor <;> intro heq <;> simpa using congrArg List.getLast? heq

/-- Saving the caches leaves the page as it is, and the session in order. -/
theorem flush_spec (law : Law) (rules : String) {w w' : Workspace σ} {outcome : Except Error Unit}
    {text : String}
    (hw : w.session.InOrder running texts w.files.workDir project metadata)
    (hpage : w.files.read project.pagePath = .ok text)
    (hflush : Workspace.flush.result w = (outcome, w')) :
    w'.files.workDir = w.files.workDir ∧ w'.files.read project.pagePath = .ok text ∧
      w'.session.InOrder running texts w.files.workDir project metadata ∧
      w.session.evolver.Persists law rules w'.session.evolver := by
  obtain ⟨⟨between, hputs, hputs'⟩, unsaved, unsaved', hevolver⟩ :=
    w.session.evolver.puts_flush w.files
  obtain ⟨hlexicon, rfl, hready, hpath, hpath'⟩ := hw
  obtain ⟨hne, hne'⟩ := target_pagePath_ne w.files project
  rw [hpath] at hputs
  rw [hpath', hputs.target_eq] at hputs'
  have hresult : w' = { w with
      files := (w.session.evolver.flush w.files).2.1
      session := { w.session with evolver := (w.session.evolver.flush w.files).2.2 } } :=
    (congrArg Prod.snd hflush).symm
  have horder := hready.flush w.files
  rw [hevolver] at hresult horder
  subst hresult
  exact ⟨hputs'.workDir.trans hputs.workDir,
    hputs'.read_eq (hputs.read_eq hpage hne) (by rwa [hputs.target_eq]),
    ⟨⟨hlexicon.belongs, hlexicon.grounded⟩, rfl, horder, hpath, hpath'⟩,
    fun hhash => ⟨hhash, .of_entries rfl rfl⟩⟩

theorem IsOf.congr {w w' : Workspace σ} {memo : Memo String} {edition : Edition}
    (h : IsOf toHtml laws texts project metadata w memo edition) (hfiles : w'.files = w.files)
    (hsession : w'.session = w.session) : IsOf toHtml laws texts project metadata w' memo edition := by
  obtain ⟨files', session', reports'⟩ := w'
  dsimp only at hfiles hsession
  subst hfiles hsession
  exact ⟨h.workDir, h.holds, h.paths, h.stamps, h.prints, h.written⟩

/-- A page that was just rendered and stamped. -/
theorem isOf_of_prints {w : Workspace σ} {rules text : String} {stamps : List (Path × String)}
    {written : Bool} (hs : s.Upheld toHtml laws running texts project metadata)
    (hrules : Session.Governs rules s.files project)
    (hprints : Prints toHtml (laws rules) rules s.files project metadata w.session.evolver text)
    (hstamp : PathCache.stamp s.files (dependencies project
      ((Session.loadLexicon s.files project).toOption.elim [] (·.1.sources))) = .ok stamps)
    (hdir : w.files.workDir = s.files.workDir)
    (hwritten : written = true → w.files.read project.pagePath = .ok text) :
    IsOf toHtml laws texts project metadata w ⟨stamps, text⟩ ⟨s.files, written⟩ := by
  obtain ⟨hpaths, hsums⟩ := PathCache.stamp_eq_ok hstamp
  exact ⟨hdir.symm, hs.holds, hpaths, hsums, ⟨rules, hrules, hprints⟩, hwritten⟩

/-- Only a book that can be read is rendered. -/
theorem Upheld.exists_read {text : String} {paths : List Path} {w : Workspace σ}
    (hs : s.Upheld toHtml laws running texts project metadata)
    (hrender : (renderWith toHtml engine).result s.workspace = (.ok (text, paths), w)) :
    ∃ source, s.files.read project.bookPath = .ok source := by
  rcases hbook : s.files.read project.bookPath with fault | source
  · obtain rfl := hs.session.lexicon.belongs
    cases hrender.symm.trans (render_of_unreadable hbook)
  · exact ⟨source, rfl⟩

section

variable (hengine : engine.WordWise laws project.changesPath running)
  (hdigest : Set.InjOn textDigest texts)
  (hs : s.Upheld toHtml laws running texts project metadata)

include hengine hdigest hs

/-- A rendering that fails changes nothing. -/
theorem Upheld.unrendered {e : Error} {w : Workspace σ}
    (hrender : (renderWith toHtml engine).result s.workspace = (.error e, w)) : w = s.workspace := by
  obtain ⟨rules, hrules⟩ := Session.exists_governs s.files project
  rcases hbook : s.files.read project.bookPath with fault | source
  · obtain rfl := hs.session.lexicon.belongs
    cases hrender.symm.trans (render_of_unreadable hbook)
    rfl
  · obtain ⟨text, w', hrender', -⟩ :=
      exists_render hengine hdigest hs.holds hrules hs.session hbook
    cases hrender.symm.trans hrender'

/-- A rendering leaves the files as they are and the session in order, and the page is the one that
the book prints. -/
theorem Upheld.rendered {text : String} {paths : List Path} {w : Workspace σ}
    (hrender : (renderWith toHtml engine).result s.workspace = (.ok (text, paths), w)) :
    ∃ rules, Session.Governs rules s.files project ∧
      paths = dependencies project
        ((Session.loadLexicon s.files project).toOption.elim [] (·.1.sources)) ∧
      w.files = s.files ∧ w.session.InOrder running texts w.files.workDir project metadata ∧
      (¬ Session.Loads s.files project → w.session = s.workspace.session) ∧
      Prints toHtml (laws rules) rules s.files project metadata w.session.evolver text := by
  obtain ⟨rules, hrules⟩ := Session.exists_governs s.files project
  obtain ⟨source, hbook⟩ := hs.exists_read hrender
  obtain ⟨text', w', hrender', hfiles, hleads, hprints⟩ :=
    exists_render hengine hdigest hs.holds hrules hs.session hbook
  cases hrender.symm.trans hrender'
  exact ⟨rules, hrules, rfl, hfiles, by rw [hfiles]; exact hleads.order, hleads.idle, hprints⟩

/-- Every way that a refresh can go keeps the page with the files that it was rendered from. -/
theorem Upheld.refreshed {outcome : Except Error Bool}
    (hrefreshes : Refreshes toHtml engine s outcome s') :
    s'.workspace.session.InOrder running texts s'.files.workDir project metadata ∧
      ∀ memo, s'.press.built = some memo → ∃ edition, s'.edition = some edition ∧
        IsOf toHtml laws texts project metadata s'.workspace memo edition := by
  cases hrefreshes with
  | unchecked => exact ⟨hs.session, hs.edition⟩
  | fresh => exact ⟨hs.session, hs.edition⟩
  | unrendered _ hrender =>
    obtain rfl := hs.unrendered hengine hdigest hrender
    exact ⟨hs.session, hs.edition⟩
  | @unstamped text paths e w _ hrender hstamp =>
    obtain ⟨source, hbook⟩ := hs.exists_read hrender
    obtain ⟨rules, -, rfl, hfiles, horder, hidle, -⟩ := hs.rendered hengine hdigest hrender
    -- stamps can be taken if there is a lexicon, so there was none, and no fragment was evolved
    have hnone : ¬ Session.Loads s.files project := by
      rintro ⟨⟨lex, paths⟩, hload⟩
      obtain ⟨stamps, hstamps⟩ :=
        PathCache.exists_stamp_eq_ok (readable_of_mem_dependencies hload hbook)
      rw [hfiles, hload] at hstamp
      cases hstamp.symm.trans hstamps
    refine ⟨horder, fun memo hmemo => ?_⟩
    obtain ⟨edition, hedition, hof⟩ := hs.edition memo hmemo
    exact ⟨edition, hedition, hof.congr hfiles (hidle hnone)⟩
  | @unwritten text paths stamps fault w _ hrender hstamp hwrite =>
    obtain ⟨rules, hrules, rfl, hfiles, horder, -, hprints⟩ := hs.rendered hengine hdigest hrender
    rw [hfiles] at hstamp
    refine ⟨horder, fun memo hmemo => ⟨_, rfl, ?_⟩⟩
    obtain rfl := Option.some.inj hmemo
    exact isOf_of_prints hs hrules hprints hstamp (by rw [hfiles]) nofun
  | @written text paths stamps files outcome w w' _ hrender hstamp hwrite hflush =>
    obtain ⟨rules, hrules, rfl, hfiles, horder, -, hprints⟩ := hs.rendered hengine hdigest hrender
    rw [hfiles] at hstamp
    rw [horder.lexicon.belongs] at hwrite
    obtain ⟨hputs, f, hfind, rfl⟩ := FileStore.puts_write hwrite
    obtain ⟨hdir, hpage, horder', hpersists⟩ := flush_spec (laws rules) rules
      (w := { w with files }) (by rw [hputs.workDir]; exact horder) (FileStore.read_of_find hfind) hflush
    refine ⟨by rw [hdir]; exact horder', fun memo hmemo => ⟨_, rfl, ?_⟩⟩
    obtain rfl := Option.some.inj hmemo
    exact isOf_of_prints hs hrules (hprints.mono hpersists) hstamp
      ((hdir.trans hputs.workDir).trans (by rw [hfiles])) fun _ => hpage

end

theorem upheld_of_reached (hengine : engine.WordWise laws project.changesPath running)
    (hdigest : Set.InjOn textDigest texts)
    (hs : s.Reached toHtml engine running texts project metadata) :
    s.Upheld toHtml laws running texts project metadata := by
  induction hs with
  | opened files state reports hholds hidle => exact upheld_opened hholds hidle
  | step _ hstep ih =>
    cases hstep with
    | edit files hdir hholds hpage => exact ih.edit hdir hholds hpage
    | refresh hholds =>
      obtain ⟨hsession, hedition⟩ := ih.refreshed hengine hdigest (refreshes toHtml engine _)
      exact ⟨hholds, hsession, hedition⟩

/-! ## Up to date -/

/-- Compiling writes the given text. -/
def Compiles (toHtml : String → String) (engine : Engine σ) (project : Project) (w : Workspace σ)
    (text : String) : Prop :=
  ∃ w', (compileWith toHtml engine).result w = (.ok project.pagePath, w') ∧
    w'.files.read project.pagePath = .ok text

theorem compiles_of_render {w w' : Workspace σ} {text : String} {paths : List Path}
    {files : FileStore} (hrender : (renderWith toHtml engine).result w = (.ok (text, paths), w'))
    (hproject : w'.session.project = project)
    (hwrite : w'.files.write project.pagePath text = .ok files) :
    Compiles toHtml engine project w text := by
  subst hproject
  obtain ⟨-, f, hfind, rfl⟩ := FileStore.puts_write hwrite
  refine ⟨{ w' with files }, ?_, FileStore.read_of_find hfind⟩
  rw [compileWith, Action.result_bind_ok hrender]
  dsimp only
  rw [writePage, Action.result_ofFunction]
  dsimp only
  rw [hwrite]

/-- A kept page is what compiling writes while its dependencies are read the same, unless the lexicon
can be loaded now and could not be then. -/
theorem Upheld.compiles {edition : Edition} {memo : Memo String} {old : String}
    (hengine : engine.WordWise laws project.changesPath running)
    (hdigest : Set.InjOn textDigest texts) (hs : s.Upheld toHtml laws running texts project metadata)
    (hof : IsOf toHtml laws texts project metadata s.workspace memo edition)
    (hread : ∀ p ∈ memo.paths, s.files.read p = edition.taken.read p)
    (hloads : Session.Loads s.files project → Session.Loads edition.taken project)
    (hpage : s.files.read project.pagePath = .ok old) :
    Compiles toHtml engine project s.workspace memo.value := by
  obtain ⟨rules, hrules, hprints⟩ := hof.prints
  rw [hof.paths] at hread
  obtain ⟨hprints', hrules'⟩ := hprints.of_dependencies hrules hof.workDir.symm hread hloads
  obtain ⟨paths, w', hrender, hfiles, hproject⟩ :=
    render_again hengine hdigest hs.holds hrules' hs.session hprints'
  obtain ⟨files, hwrite⟩ := FileStore.exists_write_of_read hpage memo.value
  exact compiles_of_render hrender hproject (by rw [hfiles]; exact hwrite)

/-- Whatever makes the markup, a refresh that writes the page writes what compiling writes, and would
write again afterwards. One that does not leaves everything as it is, and the page has the stamps of the
present files: if it was written when it was rendered, it is what compiling would write, unless the
lexicon can be loaded now and could not be when the page was rendered. -/
theorem refreshed_as_compiled (hengine : engine.WordWise laws project.changesPath running)
    (hdigest : Set.InjOn textDigest texts)
    (hs : s.Reached toHtml engine running texts project metadata) :
    (((refreshWith toHtml engine).result s.press).1 = .ok true →
      ∃ memo, (s.after toHtml engine).press.built = some memo ∧
        (s.after toHtml engine).edition = some ⟨s.files, true⟩ ∧
        (s.after toHtml engine).files.read project.pagePath = .ok memo.value ∧
        Compiles toHtml engine project s.workspace memo.value ∧
        ((s.after toHtml engine).files.Holds texts →
          (∀ p ∈ memo.paths, (s.after toHtml engine).files.read p = s.files.read p) →
          (Session.Loads (s.after toHtml engine).files project → Session.Loads s.files project) →
          Compiles toHtml engine project (s.after toHtml engine).workspace memo.value)) ∧
    (((refreshWith toHtml engine).result s.press).1 = .ok false → s.after toHtml engine = s ∧
      ∃ memo edition, s.press.built = some memo ∧ s.edition = some edition ∧
        (∀ p ∈ memo.paths, s.files.read p = edition.taken.read p) ∧
        (edition.written = true → s.files.read project.pagePath = .ok memo.value ∧
          ((Session.Loads s.files project → Session.Loads edition.taken project) →
            Compiles toHtml engine project s.workspace memo.value))) := by
  have hupheld := upheld_of_reached hengine hdigest hs
  have hrefreshes := refreshes toHtml engine s
  constructor
  · intro hout
    have hafter := hupheld.refreshed hengine hdigest hrefreshes
    generalize s.after toHtml engine = s' at hrefreshes hafter
    generalize ((refreshWith toHtml engine).result s.press).1 = outcome at hrefreshes hout
    cases hrefreshes with
    | unchecked => cases hout
    | fresh => cases hout
    | unrendered => cases hout
    | unstamped => cases hout
    | unwritten => cases hout
    | @written text paths stamps files outcome w w' _ hrender hstamp hwrite hflush =>
      obtain ⟨hsession, hedition⟩ := hafter
      obtain ⟨edition, hsome, hof⟩ := hedition _ rfl
      obtain rfl := Option.some.inj hsome
      have hpage := hof.written rfl
      obtain ⟨rules, -, -, -, horder, -, -⟩ := hupheld.rendered hengine hdigest hrender
      have hproject : w.session.project = project := horder.lexicon.belongs
      rw [hproject] at hwrite
      exact ⟨_, rfl, rfl, hpage, compiles_of_render hrender hproject hwrite, fun hholds hread hloads =>
        Upheld.compiles hengine hdigest ⟨hholds, hsession, hedition⟩ hof hread hloads hpage⟩
  · intro hout
    generalize s.after toHtml engine = s' at hrefreshes
    generalize ((refreshWith toHtml engine).result s.press).1 = outcome at hrefreshes hout
    cases hrefreshes with
    | unchecked => cases hout
    | unrendered => cases hout
    | unstamped => cases hout
    | unwritten => cases hout
    | @written text paths stamps files outcome => cases outcome <;> cases hout
    | fresh hcheck =>
      refine ⟨rfl, ?_⟩
      rcases hbuilt : s.press.built with _ | memo
      · rw [hbuilt] at hcheck
        cases hcheck
      rw [hbuilt] at hcheck
      obtain ⟨edition, hedition, hof⟩ := hupheld.edition memo hbuilt
      have hread : ∀ p ∈ memo.paths, s.files.read p = edition.taken.read p := by
        intro p hp
        obtain ⟨stamp, hstamp, rfl⟩ := List.mem_map.1 hp
        exact FileStore.read_eq_of_checksum_eq hdigest hupheld.holds hof.holds
          (PathCache.unchanged_eq_true_iff.1 hcheck stamp hstamp) (hof.stamps stamp hstamp)
      exact ⟨memo, edition, rfl, hedition, hread, fun hwritten =>
        have hpage := hof.written hwritten
        ⟨hpage, fun hloads => hupheld.compiles hengine hdigest hof hread hloads hpage⟩⟩

/-! ### A page that is written once -/

/-- The texts of all files. -/
def textsOf (files : FileStore) : List String :=
  files.nodes.filterMap fun node =>
    match node.2 with
    | .file f => some f.text
    | .directory _ => none

theorem holds_of_textsOf {files : FileStore} {known : List String}
    (h : ∀ text ∈ textsOf files, text ∈ known) : files.Holds {text | text ∈ known} :=
  FileStore.holds_of_nodes fun _ f hnode => h f.text (List.mem_filterMap.2 ⟨_, hnode, rfl⟩)

def stoneBook : String :=
  "# Book\n\n[[<stone>]]\n"

def stonePage : String :=
  page "" "<h1>Book</h1>\n<p>ada</p>\n"

/-- A project with a book. -/
def stoneFiles : FileStore :=
  let files := Session.includingFiles (some Session.stoneText)
  { files with nodes := (["work", "book.md"], .file ⟨stoneBook, 0, false⟩) :: files.nodes }

def stoneMetadata : Metadata :=
  ⟨"", "", true, none, none⟩

def stoneEngine : Engine (Option String) :=
  .ofLaw voicing ⟨"changes.lsc"⟩

def stoneShelf : Shelf (Option String) :=
  ⟨⟨⟨stoneFiles, .opened stoneFiles ⟨⟨""⟩⟩ stoneMetadata none, []⟩, none⟩, none⟩

/-- The file that a cache of the project is saved to. -/
def savedText {ν : Type} (values : Codec ν) (entries : List (Query × ν)) : String :=
  let c : PersistentCache Query ν := ⟨⟨""⟩, [], "syllables=true", entries,
    SortedMap.empty.insert "/work/changes.lsc" 0,
    SortedMap.empty.insert "/work/changes.lsc" (textDigest voicingText), false⟩
  (c.toJson Query.codec values).write

/-- All texts that files have before and after the page is written. -/
def stoneTexts : List String :=
  [voicingText, Session.includingText, Session.stoneText, stoneBook, stonePage,
    savedText Evolved.codec [(.leaf "ata" none none, ⟨"ata", "ada", "ada"⟩)],
    savedText TraceLine.codec []]

set_option maxRecDepth 100000 in
theorem injOn_stoneTexts : Set.InjOn textDigest {text | text ∈ stoneTexts} := by
  have hnodup : (stoneTexts.map textDigest).Nodup := by decide +kernel
  exact fun text htext text' htext' h => List.inj_on_of_nodup_map hnodup htext htext' h

set_option maxRecDepth 100000 in
/-- The first refresh writes the page. The second one leaves it, and it is up to date. -/
theorem refreshed_as_compiled_stone :
    stoneShelf.Reached Markdown.toHtml stoneEngine id {text | text ∈ stoneTexts} ⟨⟨""⟩⟩
      stoneMetadata ∧
    ((refreshWith Markdown.toHtml stoneEngine).result stoneShelf.press).1 = .ok true ∧
    Compiles Markdown.toHtml stoneEngine ⟨⟨""⟩⟩ stoneShelf.workspace stonePage ∧
    (stoneShelf.after Markdown.toHtml stoneEngine).Reached Markdown.toHtml stoneEngine id
      {text | text ∈ stoneTexts} ⟨⟨""⟩⟩ stoneMetadata ∧
    ((refreshWith Markdown.toHtml stoneEngine).result
      (stoneShelf.after Markdown.toHtml stoneEngine).press).1 = .ok false ∧
    (stoneShelf.after Markdown.toHtml stoneEngine).files.read ⟨"book.html"⟩ = .ok stonePage ∧
    Compiles Markdown.toHtml stoneEngine ⟨⟨""⟩⟩
      (stoneShelf.after Markdown.toHtml stoneEngine).workspace stonePage := by
  have hengine : stoneEngine.WordWise voicing ⟨"changes.lsc"⟩ id :=
    Engine.wordWise_ofLaw voicing ⟨"changes.lsc"⟩
  obtain ⟨hwrites, hleaves, hread, hholds⟩ :
      ((refreshWith Markdown.toHtml stoneEngine).result stoneShelf.press).1.toOption = some true ∧
      ((refreshWith Markdown.toHtml stoneEngine).result
        (stoneShelf.after Markdown.toHtml stoneEngine).press).1.toOption = some false ∧
      (stoneShelf.after Markdown.toHtml stoneEngine).files.read ⟨"book.html"⟩ = .ok stonePage ∧
      ∀ text ∈ textsOf (stoneShelf.after Markdown.toHtml stoneEngine).files, text ∈ stoneTexts := by
    decide +kernel
  rw [toOption_eq_some_iff] at hwrites hleaves
  have hopened : stoneShelf.Reached Markdown.toHtml stoneEngine id {text | text ∈ stoneTexts} ⟨⟨""⟩⟩
      stoneMetadata :=
    .opened stoneFiles none [] (holds_of_textsOf (by decide +kernel)) rfl
  have hrefreshed := hopened.step (.refresh _ (holds_of_textsOf hholds))
  have hloads : Session.Loads stoneFiles ⟨⟨""⟩⟩ := by
    have hsome : (Session.loadLexicon stoneFiles ⟨⟨""⟩⟩).toOption.isSome = true := by decide +kernel
    obtain ⟨loaded, hloaded⟩ := Option.isSome_iff_exists.1 hsome
    exact ⟨loaded, toOption_eq_some_iff.1 hloaded⟩
  obtain ⟨memo, hbuilt, hedition, hpage, hcompiles, -⟩ :=
    (refreshed_as_compiled hengine injOn_stoneTexts hopened).1 hwrites
  obtain ⟨-, memo', edition, hbuilt', hedition', -, hwritten⟩ :=
    (refreshed_as_compiled hengine injOn_stoneTexts hrefreshed).2 hleaves
  obtain rfl := Option.some.inj (hbuilt.symm.trans hbuilt')
  obtain rfl := Option.some.inj (hedition.symm.trans hedition')
  have hvalue : memo.value = stonePage := Except.ok.inj (hpage.symm.trans hread)
  rw [hvalue] at hcompiles hwritten
  exact ⟨hopened, hwrites, hcompiles, hrefreshed, hleaves, hread, (hwritten rfl).2 fun _ => hloads⟩

end Shelf

end Etymon.Book
