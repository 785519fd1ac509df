import Etymon.Proofs.Calls

/-!
# Histories of an evolver

An evolver is opened, called, flushed and opened again while an author edits the rule file. Whatever
has happened, a call gives what evolving each input by itself gives, as long as no call has validated
its cache against a rule file that changed without its time.

## Main definitions

* `Site`: an evolver and the files it works on.
* `Site.Step`: a call, a flush, a new opening, or an edit of the rule file.
* `Site.Reached`: what a history of such steps leads to.

## Main results

* `Site.upheld_of_reached`: caches, in memory and on disk, belong to texts of the rule file.
* `evolve_eq_naive`: a call evolves each input the plain way.
-/

namespace Etymon

/-! ## Saving -/

namespace PersistentCache

variable {κ ν : Type}

/-- Saving puts the cache's file in its place, if anything. -/
theorem puts_save (keys : Codec κ) (values : Codec ν) (files : FileStore)
    (c : PersistentCache κ ν) :
    files.Puts (c.save keys values files).2.1 (files.target c.path) (c.toJson keys values).write ∧
      ∃ unsaved, (c.save keys values files).2.2 = { c with unsaved } := by
  rw [save]
  split
  · have hdirs := files.puts_createDirs c.directory (files.target c.path)
      (c.toJson keys values).write
    cases hcreate : files.createDirs c.directory with
    | mk outcome created =>
      rw [hcreate] at hdirs
      cases outcome with
      | error fault => exact ⟨hdirs, c.unsaved, rfl⟩
      | ok _ =>
        dsimp only
        split
        · exact ⟨hdirs, c.unsaved, rfl⟩
        · next replaced hreplace =>
          have hreplaced := FileStore.puts_replace hreplace
          rw [hdirs.target_eq] at hreplaced
          exact ⟨hdirs.trans hreplaced, false, rfl⟩
  · exact ⟨.refl _ _ _, c.unsaved, rfl⟩

/-- There is nothing to be saved; or saving fails, and at most makes directories; or the file holds the
cache afterwards. -/
theorem save_cases (keys : Codec κ) (values : Codec ν) (files : FileStore) (c : PersistentCache κ ν) :
    (c.save keys values files = (.ok (), files, c) ∧ c.unsaved = false) ∨
    (∃ e left, c.save keys values files = (.error e, left, c) ∧ c.unsaved = true ∧
      ∀ l text, files.Puts left l text) ∨
    ∃ left, c.save keys values files = (.ok (), left, { c with unsaved := false }) ∧
      left.read c.path = .ok (c.toJson keys values).write ∧ c.unsaved = true := by
  rw [save]
  split
  · next hunsaved =>
    have hputs := fun l text => files.puts_createDirs c.directory l text
    cases hcreate : files.createDirs c.directory with
    | mk outcome created =>
      rw [hcreate] at hputs
      cases outcome with
      | error fault => exact .inr (.inl ⟨_, _, rfl, hunsaved, hputs⟩)
      | ok =>
        dsimp only
        split
        · exact .inr (.inl ⟨_, _, rfl, hunsaved, hputs⟩)
        · next left hreplace =>
          exact .inr (.inr ⟨left, rfl, FileStore.read_replace hreplace, hunsaved⟩)
  · next hsaved => exact .inl ⟨rfl, by simpa using hsaved⟩

end PersistentCache

namespace Evolver

variable {σ : Type} {files : FileStore}

def evolvedFile (cacheDir : Path) : Path :=
  cacheDir.child "evolve-cache.cache"

def tracesFile (cacheDir : Path) : Path :=
  cacheDir.child "trace-cache.cache"

/-- The two files of the caches lie in different places. -/
theorem target_evolvedFile_ne (files : FileStore) (cacheDir : Path) :
    files.target (evolvedFile cacheDir) ≠ files.target (tracesFile cacheDir) := by
  obtain ⟨l, hl⟩ := files.exists_target_child cacheDir
  rw [evolvedFile, tracesFile, hl "evolve-cache.cache" ⟨by decide, by decide, by decide⟩,
    hl "trace-cache.cache" ⟨by decide, by decide, by decide⟩]
  intro heq
  simp at heq

/-- Flushing puts the files of both caches in their places, if anything. -/
theorem puts_flush (files : FileStore) (v : Evolver σ) :
    (∃ between,
      files.Puts between (files.target v.evolved.path)
        (v.evolved.toJson Query.codec Evolved.codec).write ∧
      between.Puts (v.flush files).2.1 (between.target v.traces.path)
        (v.traces.toJson Query.codec TraceLine.codec).write) ∧
      ∃ unsaved unsaved', (v.flush files).2.2 =
        { v with
          evolved := { v.evolved with unsaved }
          traces := { v.traces with unsaved := unsaved' } } := by
  obtain ⟨hevolved, unsaved, hunsaved⟩ :=
    v.evolved.puts_save Query.codec Evolved.codec files
  rw [flush]
  cases hsave : v.evolved.save Query.codec Evolved.codec files with
  | mk outcome rest =>
    obtain ⟨between, evolved⟩ := rest
    rw [hsave] at hevolved hunsaved
    dsimp only at hevolved hunsaved
    subst hunsaved
    cases outcome with
    | error e => exact ⟨⟨between, hevolved, .refl _ _ _⟩, unsaved, v.traces.unsaved, rfl⟩
    | ok _ =>
      obtain ⟨htraces, unsaved', hunsaved'⟩ :=
        v.traces.puts_save Query.codec TraceLine.codec between
      exact ⟨⟨between, hevolved, htraces⟩, unsaved, unsaved', by rw [← hunsaved']⟩

/-- Flushing leaves an evolver ready. -/
theorem Ready.flush {running : σ → Option String} {texts : Set String} {rulesPath : Path}
    {v : Evolver σ} (hv : v.Ready running texts rulesPath) (files : FileStore) :
    (v.flush files).2.2.Ready running texts rulesPath := by
  obtain ⟨-, unsaved, unsaved', hflush⟩ := puts_flush files v
  rw [hflush]
  exact ⟨hv.path, hv.order, hv.evolvedSources, hv.tracesSources, hv.state⟩

theorem puts_close (files : FileStore) (v : Evolver σ) : ∃ between,
    files.Puts between (files.target v.evolved.path)
      (v.evolved.toJson Query.codec Evolved.codec).write ∧
    between.Puts (v.close files) (between.target v.traces.path)
      (v.traces.toJson Query.codec TraceLine.codec).write :=
  ⟨_, (v.evolved.puts_save _ _ _).1, (v.traces.puts_save _ _ _).1⟩

theorem workDir_flush (files : FileStore) (v : Evolver σ) :
    (v.flush files).2.1.workDir = files.workDir := by
  obtain ⟨⟨_, hputs, hputs'⟩, -⟩ := v.puts_flush files
  exact hputs'.workDir.trans hputs.workDir

theorem workDir_close (files : FileStore) (v : Evolver σ) :
    (v.close files).workDir = files.workDir := by
  obtain ⟨_, hputs, hputs'⟩ := v.puts_close files
  exact hputs'.workDir.trans hputs.workDir

end Evolver

/-! ## Files -/

/-- The rule file can be read and is none of the files of the caches; what the file of the evolved
forms holds belongs to a text of the rule file. -/
structure FileStore.Upheld (law : String → Law) (texts : Set String) (rulesPath cacheDir : Path)
    (files : FileStore) : Prop where
  readable : ∃ text ∈ texts, files.read rulesPath = .ok text
  apart : files.target rulesPath ≠ files.target (Evolver.evolvedFile cacheDir) ∧
    files.target rulesPath ≠ files.target (Evolver.tracesFile cacheDir)
  stored : ∀ f, files.node? (files.target (Evolver.evolvedFile cacheDir)) = some (.file f) →
    ∀ saved, PersistentCache.saved? Query.codec Evolved.codec f.text = some saved →
      ∃ text ∈ texts, PersistentCache.Belongs law text saved

namespace FileStore.Upheld

variable {law : String → Law} {texts : Set String} {rulesPath cacheDir : Path}
  {files files' : FileStore} {text : String}

/-- A file of evolved forms may be put where it belongs. -/
theorem putEvolved (h : files.Upheld law texts rulesPath cacheDir)
    {c : PersistentCache Query Evolved} (htext : text ∈ texts)
    (hc : PersistentCache.Belongs law text c.contents)
    (hputs : files.Puts files' (files.target (Evolver.evolvedFile cacheDir))
      (c.toJson Query.codec Evolved.codec).write) : files'.Upheld law texts rulesPath cacheDir := by
  obtain ⟨⟨present, hpresent, hread⟩, hapart, hstored⟩ := h
  refine ⟨⟨present, hpresent, hputs.read_eq hread hapart.1⟩, ?_, fun f hf saved hsaved => ?_⟩
  · rwa [hputs.target_eq, hputs.target_eq, hputs.target_eq]
  · rw [hputs.target_eq] at hf
    rcases hputs.files hf with hold | ⟨-, hnew⟩
    · exact hstored f hold saved hsaved
    · rw [hnew] at hsaved
      exact ⟨text, htext, PersistentCache.belongs_of_saved? hc hsaved⟩

/-- Any file may be put where the traces belong. -/
theorem putTraces (h : files.Upheld law texts rulesPath cacheDir) {other : String}
    (hputs : files.Puts files' (files.target (Evolver.tracesFile cacheDir)) other) :
    files'.Upheld law texts rulesPath cacheDir := by
  obtain ⟨⟨present, hpresent, hread⟩, hapart, hstored⟩ := h
  refine ⟨⟨present, hpresent, hputs.read_eq hread hapart.2⟩, ?_, fun f hf saved hsaved => ?_⟩
  · rwa [hputs.target_eq, hputs.target_eq, hputs.target_eq]
  · rw [hputs.target_eq] at hf
    rcases hputs.files hf with hold | ⟨heq, -⟩
    · exact hstored f hold saved hsaved
    · exact absurd heq (Evolver.target_evolvedFile_ne files cacheDir)

/-- The rule file may get another of its texts. -/
theorem edit (h : files.Upheld law texts rulesPath cacheDir) (htext : text ∈ texts) {time : Nat}
    (hwrite : { files with clock := time }.write rulesPath text = .ok files') :
    files'.Upheld law texts rulesPath cacheDir := by
  obtain ⟨hputs, hread⟩ := puts_write_at hwrite
  obtain ⟨-, hapart, hstored⟩ := h
  refine ⟨⟨text, htext, hread⟩, ?_, fun g hg saved hsaved => ?_⟩
  · rwa [hputs.target_eq, hputs.target_eq, hputs.target_eq]
  · rw [hputs.target_eq] at hg
    rcases hputs.files hg with hold | ⟨heq, -⟩
    · exact hstored g hold saved hsaved
    · exact absurd heq.symm hapart.1

end FileStore.Upheld

/-! ## Openings -/

namespace PersistentCache

variable {law : String → Law} {texts : Set String} {rulesPath cacheDir : Path}
  {files : FileStore} {text : String}

/-- The cache as it was saved, before it is validated. -/
def evolvedOnDisk (files : FileStore) (rulesPath cacheDir : Path) (syllables : Bool) :
    PersistentCache Query Evolved :=
  ofFile Query.codec Evolved.codec files (Evolver.evolvedFile cacheDir) [rulesPath]
    (Evolver.settings syllables)

theorem belongs_blank (law : String → Law) (text settings : String) :
    Belongs law text ⟨settings, [], .empty, .empty⟩ :=
  ⟨fun _ _ entry hentry => (by cases hentry), fun item hitem => (by cases hitem),
    fun item hitem => (by cases hitem)⟩

theorem belongs_evolvedOnDisk (h : files.Upheld law texts rulesPath cacheDir) (syllables : Bool) :
    ∃ old ∈ texts, Belongs law old (evolvedOnDisk files rulesPath cacheDir syllables).contents := by
  obtain ⟨⟨present, hpresent, -⟩, -, hstored⟩ := h
  rw [evolvedOnDisk, ofFile]
  split
  · exact ⟨present, hpresent, belongs_blank _ _ _⟩
  · next hread =>
    split
    · exact ⟨present, hpresent, belongs_blank _ _ _⟩
    · next saved hsaved =>
      obtain ⟨f, hfind, rfl⟩ := FileStore.exists_find_of_read hread
      obtain ⟨old, hold, hbelongs⟩ := hstored f (FileStore.find_eq_ok_iff.1 hfind).2 saved hsaved
      split
      · next hsettings =>
        refine ⟨old, hold, fun syllables' hsettings' => ?_, hbelongs.hashes, hbelongs.times⟩
        exact hbelongs.entries syllables' (hsettings.trans hsettings')
      · exact ⟨present, hpresent, belongs_blank _ _ _⟩

theorem alike_ofFile {κ ν : Type} [DecidableEq κ] (keys : Codec κ) (values : Codec ν)
    (files : FileStore) (path : Path) (sources : List Path) (settings : String) :
    (ofFile keys values files path sources settings).path = path ∧
      (ofFile keys values files path sources settings).sources = sources ∧
      (ofFile keys values files path sources settings).settings = settings := by
  rw [ofFile]
  split
  · exact ⟨rfl, rfl, rfl⟩
  · split
    · exact ⟨rfl, rfl, rfl⟩
    · split <;> exact ⟨rfl, rfl, rfl⟩

theorem alike_load {κ ν : Type} [DecidableEq κ] (keys : Codec κ) (values : Codec ν)
    (files : FileStore) (path : Path) (sources : List Path) (settings : String) :
    (load keys values files path sources settings).path = path ∧
      (load keys values files path sources settings).sources = sources ∧
      (load keys values files path sources settings).settings = settings := by
  obtain ⟨hpath, hsources, hsettings⟩ := alike_ofFile keys values files path sources settings
  obtain ⟨hpath', hsources', hsettings'⟩ := alike_revalidate files
    (ofFile keys values files path sources settings)
  rw [load]
  split
  all_goals
    next hresult =>
      rw [hresult] at hpath' hsources' hsettings'
      exact ⟨hpath'.trans hpath, hsources'.trans hsources, hsettings'.trans hsettings⟩

theorem load_eq {κ ν : Type} [DecidableEq κ] {keys : Codec κ} {values : Codec ν} {path : Path}
    {sources : List Path} {settings : String} {dropped : Bool} {c : PersistentCache κ ν}
    (h : (ofFile keys values files path sources settings).revalidate files = (.ok dropped, c)) :
    load keys values files path sources settings = c := by
  rw [load, h]

end PersistentCache

namespace Evolver

variable {σ : Type} {engine : Engine σ} {law : String → Law} {running : σ → Option String}
  {texts : Set String} {rulesPath cacheDir : Path} {files : FileStore} {v w : Evolver σ}

/-- An evolver is ready as it is opened, if the engine is not running. -/
theorem ready_opened (files : FileStore) (rulesPath cacheDir : Path) {state : σ}
    (hidle : running state = none) (syllables : Bool) :
    (opened files rulesPath cacheDir state syllables).Ready running texts rulesPath :=
  ⟨rfl, nofun, (PersistentCache.alike_load _ _ _ _ _ _).2.1, (PersistentCache.alike_load _ _ _ _ _ _).2.1,
    .inl ⟨rfl, hidle⟩⟩

/-- A consistent evolver whose caches are kept in the given directory. -/
structure Housed (law : String → Law) (running : σ → Option String) (texts : Set String)
    (rulesPath cacheDir : Path) (v : Evolver σ) : Prop where
  consistent : v.Consistent law running texts rulesPath
  evolvedPath : v.evolved.path = evolvedFile cacheDir
  tracesPath : v.traces.path = tracesFile cacheDir

theorem housed_opened (hdigest : Set.InjOn textDigest texts)
    (hfiles : files.Upheld law texts rulesPath cacheDir) {state : σ} (hidle : running state = none)
    (syllables : Bool) : (opened files rulesPath cacheDir state syllables).Housed law running texts
      rulesPath cacheDir := by
  obtain ⟨old, hold, hbelongs⟩ := PersistentCache.belongs_evolvedOnDisk hfiles syllables
  obtain ⟨text, htext, hread⟩ := hfiles.readable
  obtain ⟨hpath, hsources, hsettings⟩ := PersistentCache.alike_ofFile Query.codec Evolved.codec files
    (evolvedFile cacheDir) [rulesPath] (settings syllables)
  obtain ⟨hpath', hsources', -⟩ := PersistentCache.alike_ofFile Query.codec TraceLine.codec files
    (tracesFile cacheDir) [rulesPath] (settings syllables)
  obtain ⟨dropped, c, hresult, halike, htell, hkeep⟩ := PersistentCache.belongs_revalidate hdigest
    hold htext hread hsources hbelongs
  -- a cache that is not told from others still belongs to the text it was saved with
  obtain ⟨new, hnew, hc⟩ : ∃ new ∈ texts, PersistentCache.Belongs law new c.contents := by
    by_cases htimes : (PersistentCache.evolvedOnDisk files rulesPath cacheDir syllables).TimesTell
        files
    · exact ⟨text, htext, htell htimes⟩
    · exact ⟨old, hold, hkeep htimes ▸ hbelongs⟩
  obtain ⟨dropped', t, hresult'⟩ := PersistentCache.exists_revalidate_eq_ok
    (PersistentCache.exists_checksum hread hsources')
  have halike' := (PersistentCache.revalidate_eq_ok hresult').1
  have hopened : opened files rulesPath cacheDir state syllables =
      ⟨rulesPath, none, none, state, c, t, syllables⟩ :=
    congrArg₂ (Evolver.mk rulesPath none none state · · syllables)
      (PersistentCache.load_eq hresult) (PersistentCache.load_eq hresult')
  rw [hopened]
  refine ⟨⟨rfl, fun memo hmemo => (by cases hmemo), ?_, ?_, ?_, ?_⟩, ?_, ?_⟩
  · exact halike.2.2.trans hsettings
  · exact halike.2.1.trans hsources
  · exact halike'.2.1.trans hsources'
  · exact ⟨new, hnew, hc, .inl ⟨rfl, hidle⟩⟩
  · exact halike.1.trans hpath
  · exact halike'.1.trans hpath'

/-! ### Calls -/

/-- A cache that belongs to a text is sound under the settings that it was opened with. -/
theorem Refreshed.sound {text new : String} (hw : Refreshed running texts text v w)
    (hsettings : v.evolved.settings = Evolver.settings v.syllables)
    (hc : PersistentCache.Belongs law new w.evolved.contents) : w.Sound (law new) := by
  refine hc.entries w.syllables ?_
  rw [hw.syllables, ← hsettings]
  exact hw.evolved.2.2

theorem Consistent.sound {text new : String} (hv : v.Consistent law running texts rulesPath)
    (hw : Refreshed running texts text v w)
    (hc : PersistentCache.Belongs law new w.evolved.contents) : w.Sound (law new) :=
  hw.sound hv.settings hc

/-- Batches leave the stamps as they are, so a cache that is sound after them belongs to the same
text. -/
theorem belongs_of_settled {text : String} {u : Evolver σ}
    (hsettings : u.evolved.settings = Evolver.settings u.syllables)
    (hc : PersistentCache.Belongs law text w.evolved.contents) (hu : u.Sound (law text))
    (hsettled : u.settled = w.settled) : PersistentCache.Belongs law text u.evolved.contents := by
  simp only [settled, PersistentCache.emptied, Prod.mk.injEq, PersistentCache.mk.injEq] at hsettled
  obtain ⟨-, -, -, -, ⟨-, -, -, -, htimes, hhashes, -⟩, -⟩ := hsettled
  refine ⟨fun syllables hsyll => ?_, ?_, ?_⟩
  · rw [← settings_injective (hsettings.symm.trans hsyll)]
    exact hu
  · rw [PersistentCache.contents, hhashes]
    exact hc.hashes
  · rw [PersistentCache.contents, htimes]
    exact hc.times

/-- What a call leaves behind is kept like what it found. -/
theorem Housed.of_settled {text : String} {u : Evolver σ} (htext : text ∈ texts)
    (hv : v.Housed law running texts rulesPath cacheDir)
    (hw : Refreshed running texts text v w)
    (hc : PersistentCache.Belongs law text w.evolved.contents) (hu : u.Sound (law text))
    (htuned : u.Tuned running text) (hsettled : u.settled = w.settled) :
    u.Housed law running texts rulesPath cacheDir := by
  have hbelongs := fun hsettings => belongs_of_settled hsettings hc hu hsettled
  obtain ⟨⟨rfl, horder, hsettings, hevolved, htraces, -⟩, hpath, hpath'⟩ := hv
  simp only [settled, PersistentCache.emptied, Prod.mk.injEq, PersistentCache.mk.injEq] at hsettled
  obtain ⟨hrules, hrulesOrder, hrulesHash, hsyllables, ⟨huPath, huSources, huSettings, -⟩, huPath',
    huSources', -⟩ := hsettled
  have hsettings' : u.evolved.settings = Evolver.settings u.syllables := by
    rw [huSettings, hw.evolved.2.2, hsettings, hsyllables, hw.syllables]
  refine ⟨⟨hrules.trans hw.path, by rw [hrulesOrder]; exact hw.order, hsettings', ?_, ?_, text, htext,
    hbelongs hsettings', .inr ⟨hrulesHash.trans hw.hash, htuned⟩⟩, ?_, ?_⟩
  · rw [huSources, hw.evolved.2.1, hevolved]
  · rw [huSources', hw.traces.2.1, htraces]
  · rw [huPath, hw.evolved.1, hpath]
  · rw [huPath', hw.traces.1, hpath']

theorem Housed.call (hengine : engine.WordWise law rulesPath running)
    (hdigest : Set.InjOn textDigest texts) (hfiles : files.Upheld law texts rulesPath cacheDir)
    (hv : v.Housed law running texts rulesPath cacheDir) (htimes : v.Timely files) (trace : Bool)
    (inputs : List Evolvable) :
    ((call engine files trace inputs).result v).2.Housed law running texts rulesPath cacheDir := by
  obtain ⟨text, htext, hread⟩ := hfiles.readable
  obtain ⟨w, hrefresh, hw, hc, -⟩ := exists_refresh hengine hdigest htext hread hv.consistent
  obtain ⟨batches, outcome, hwindow, hruns⟩ := exists_runs_call hrefresh trace inputs
  obtain ⟨hsound, htuned⟩ := hruns.sound hengine hread hwindow
    (hv.consistent.sound hw (hc htimes)) hw.tuned
  exact hv.of_settled htext hw (hc htimes) hsound htuned hruns.settled_eq

/-! ### Saving -/

/-- The files of both caches may be put in their places, one after the other. -/
theorem Housed.upheld_of_puts {between files' : FileStore} {other : String}
    (hfiles : files.Upheld law texts rulesPath cacheDir)
    (hv : v.Housed law running texts rulesPath cacheDir)
    (hevolved : files.Puts between (files.target v.evolved.path)
      (v.evolved.toJson Query.codec Evolved.codec).write)
    (htraces : between.Puts files' (between.target v.traces.path) other) :
    files'.Upheld law texts rulesPath cacheDir := by
  obtain ⟨text, htext, hbelongs, -⟩ := hv.consistent.content
  rw [hv.evolvedPath] at hevolved
  rw [hv.tracesPath] at htraces
  exact (hfiles.putEvolved htext hbelongs hevolved).putTraces htraces

theorem Housed.flush (hfiles : files.Upheld law texts rulesPath cacheDir)
    (hv : v.Housed law running texts rulesPath cacheDir) :
    (v.flush files).2.1.Upheld law texts rulesPath cacheDir ∧
      (v.flush files).2.2.Housed law running texts rulesPath cacheDir := by
  obtain ⟨⟨between, hevolved, htraces⟩, unsaved, unsaved', hflushed⟩ := v.puts_flush files
  refine ⟨hv.upheld_of_puts hfiles hevolved htraces, ?_⟩
  rw [hflushed]
  obtain ⟨⟨hpath, horder, hsettings, hsources, hsources', hcontent⟩, hevolved, htraces⟩ := hv
  exact ⟨⟨hpath, horder, hsettings, hsources, hsources', hcontent⟩, hevolved, htraces⟩

theorem Housed.upheld_close (hfiles : files.Upheld law texts rulesPath cacheDir)
    (hv : v.Housed law running texts rulesPath cacheDir) :
    (v.close files).Upheld law texts rulesPath cacheDir := by
  obtain ⟨between, hevolved, htraces⟩ := v.puts_close files
  exact hv.upheld_of_puts hfiles hevolved htraces

end Evolver

/-! ## Histories -/

/-- An evolver and the files it works on. -/
structure Site (σ : Type) where
  files : FileStore
  evolver : Evolver σ

namespace Site

variable {σ : Type} {engine : Engine σ} {law : String → Law} {running : σ → Option String}
  {texts : Set String} {rulesPath cacheDir : Path} {s t : Site σ}

/-- What can happen to a site. Evolvers are opened with an engine that does not run yet and with any
syllables setting; an edit gives the rule file one of its texts and any time. Where a call validates
its cache, the times have to tell texts apart. -/
inductive Step (engine : Engine σ) (running : σ → Option String) (texts : Set String)
    (rulesPath cacheDir : Path) : Site σ → Site σ → Prop
  | evolve (s : Site σ) (inputs : List Evolvable) (htimes : s.evolver.Timely s.files) :
      Step engine running texts rulesPath cacheDir s
        ⟨s.files, ((Evolver.evolve engine s.files inputs).result s.evolver).2⟩
  | trace (s : Site σ) (inputs : List Evolvable) (htimes : s.evolver.Timely s.files) :
      Step engine running texts rulesPath cacheDir s
        ⟨s.files, ((Evolver.trace engine s.files inputs).result s.evolver).2⟩
  | flush (s : Site σ) :
      Step engine running texts rulesPath cacheDir s
        ⟨(s.evolver.flush s.files).2.1, (s.evolver.flush s.files).2.2⟩
  | reopen (s : Site σ) (state : σ) (syllables : Bool) (hidle : running state = none) :
      Step engine running texts rulesPath cacheDir s
        ⟨s.evolver.close s.files,
          .opened (s.evolver.close s.files) rulesPath cacheDir state syllables⟩
  | edit (s : Site σ) (text : String) (time : Nat) (files : FileStore) (htext : text ∈ texts)
      (hwrite : { s.files with clock := time }.write rulesPath text = .ok files) :
      Step engine running texts rulesPath cacheDir s ⟨files, s.evolver⟩

/-- What a history leads to that begins with an opening without files of the caches. -/
inductive Reached (engine : Engine σ) (running : σ → Option String) (texts : Set String)
    (rulesPath cacheDir : Path) : Site σ → Prop
  | opened (files : FileStore) (text : String) (htext : text ∈ texts)
      (hread : files.read rulesPath = .ok text)
      (hevolved : ∀ f, files.node? (files.target (Evolver.evolvedFile cacheDir)) ≠ some (.file f))
      (htraces : ∀ f, files.node? (files.target (Evolver.tracesFile cacheDir)) ≠ some (.file f))
      (state : σ) (syllables : Bool) (hidle : running state = none) :
      Reached engine running texts rulesPath cacheDir
        ⟨files, .opened files rulesPath cacheDir state syllables⟩
  | step {s t : Site σ} (hs : Reached engine running texts rulesPath cacheDir s)
      (hst : Step engine running texts rulesPath cacheDir s t) :
      Reached engine running texts rulesPath cacheDir t

/-- Caches, in memory and on disk, belong to texts of the rule file. -/
structure Upheld (law : String → Law) (running : σ → Option String) (texts : Set String)
    (rulesPath cacheDir : Path) (s : Site σ) : Prop where
  files : s.files.Upheld law texts rulesPath cacheDir
  evolver : s.evolver.Housed law running texts rulesPath cacheDir

theorem Upheld.step (hengine : engine.WordWise law rulesPath running)
    (hdigest : Set.InjOn textDigest texts) (hs : s.Upheld law running texts rulesPath cacheDir)
    (hst : Step engine running texts rulesPath cacheDir s t) :
    t.Upheld law running texts rulesPath cacheDir := by
  obtain ⟨hfiles, hevolver⟩ := hs
  cases hst with
  | evolve inputs htimes =>
    rw [← (Evolver.snd_result_call engine s.files inputs s.evolver).1]
    exact ⟨hfiles, hevolver.call hengine hdigest hfiles htimes false inputs⟩
  | trace inputs htimes =>
    rw [← (Evolver.snd_result_call engine s.files inputs s.evolver).2]
    exact ⟨hfiles, hevolver.call hengine hdigest hfiles htimes true inputs⟩
  | flush =>
    obtain ⟨hfiles', hevolver'⟩ := hevolver.flush hfiles
    exact ⟨hfiles', hevolver'⟩
  | reopen state syllables hidle =>
    have hclosed := hevolver.upheld_close hfiles
    exact ⟨hclosed, Evolver.housed_opened hdigest hclosed hidle syllables⟩
  | edit text time files htext hwrite =>
    exact ⟨hfiles.edit htext hwrite, hevolver⟩

theorem upheld_opened (hdigest : Set.InjOn textDigest texts) {files : FileStore} {text : String}
    (htext : text ∈ texts) (hread : files.read rulesPath = .ok text)
    (hevolved : ∀ f, files.node? (files.target (Evolver.evolvedFile cacheDir)) ≠ some (.file f))
    (htraces : ∀ f, files.node? (files.target (Evolver.tracesFile cacheDir)) ≠ some (.file f))
    {state : σ} {syllables : Bool} (hidle : running state = none) :
    Upheld law running texts rulesPath cacheDir
      ⟨files, .opened files rulesPath cacheDir state syllables⟩ := by
  obtain ⟨f, hfind, -⟩ := FileStore.exists_find_of_read hread
  have hrules := (FileStore.find_eq_ok_iff.1 hfind).2
  have hfiles : files.Upheld law texts rulesPath cacheDir := by
    refine ⟨⟨text, htext, hread⟩, ⟨fun heq => ?_, fun heq => ?_⟩, fun g hg => absurd hg (hevolved g)⟩
    · exact hevolved f (heq ▸ hrules)
    · exact htraces f (heq ▸ hrules)
  exact ⟨hfiles, Evolver.housed_opened hdigest hfiles hidle syllables⟩

theorem upheld_of_reached (hengine : engine.WordWise law rulesPath running)
    (hdigest : Set.InjOn textDigest texts)
    (hs : Reached engine running texts rulesPath cacheDir s) :
    s.Upheld law running texts rulesPath cacheDir := by
  induction hs with
  | opened files text htext hread hevolved htraces state syllables hidle =>
    exact upheld_opened hdigest htext hread hevolved htraces hidle
  | step _ hst ih => exact ih.step hengine hdigest hst

/-- If the rule file only ever had one text, every call is timely. -/
theorem Upheld.timely (hs : s.Upheld law running texts rulesPath cacheDir)
    (htexts : texts.Subsingleton) : s.evolver.Timely s.files := by
  obtain ⟨text, htext, hread⟩ := hs.files.readable
  obtain ⟨old, hold, hbelongs, -⟩ := hs.evolver.consistent.content
  rw [htexts hold htext] at hbelongs
  exact hs.evolver.consistent.timely_of_belongs hread hbelongs

end Site

/-- Evolving through batches, layers and caches gives what evolving each input by itself gives: after
any history, a call succeeds exactly when every input has a query that evolves the plain way under the
present text of the rule file, and then gives these results. The condition on times is exact: where it
fails, all that is cached was evolved under another text, and the call answers with it. -/
theorem evolve_eq_naive {σ : Type} {engine : Engine σ} {law : String → Law}
    {running : σ → Option String} {texts : Set String} {rulesPath cacheDir : Path} {s : Site σ}
    (hengine : engine.WordWise law rulesPath running) (hdigest : Set.InjOn textDigest texts)
    (hs : s.Reached engine running texts rulesPath cacheDir) {text : String}
    (hread : s.files.read rulesPath = .ok text) :
    (s.evolver.Timely s.files → ∀ inputs es,
      (((Evolver.evolve engine s.files inputs).result s.evolver).1 = .ok es ↔
        List.Forall₂ (fun input e => ∃ q,
          Query.ofForm (.parse text) (input.arranged (.parse text)) = .ok q ∧
            q.naive (law text) s.evolver.syllables = .ok e) inputs es)) ∧
    (¬ s.evolver.Timely s.files → ∃ old ∈ texts, old ≠ text ∧ ∀ inputs es,
      ((Evolver.evolve engine s.files inputs).result s.evolver).1 = .ok es →
        List.Forall₂ (fun input e => ∀ q,
          Query.ofForm (.parse text) (input.arranged (.parse text)) = .ok q →
            s.evolver.evolved.contains q = true →
              q.naive (law old) s.evolver.syllables = .ok e) inputs es) := by
  have hupheld := Site.upheld_of_reached hengine hdigest hs
  obtain ⟨present, htext, hpresent⟩ := hupheld.files.readable
  rw [hread, Except.ok.injEq] at hpresent
  subst hpresent
  have hconsistent := hupheld.evolver.consistent
  obtain ⟨w, hrefresh, hw, htell, hkeep⟩ :=
    Evolver.exists_refresh hengine hdigest htext hread hconsistent
  constructor
  · intro htimes inputs es
    have hsound := hconsistent.sound hw (htell htimes)
    rw [Evolver.evolve_eq_ok_iff hengine hread hrefresh hsound hw.tuned, hw.syllables]
  · intro htimes
    obtain ⟨old, hold, hbelongs, -⟩ := hconsistent.content
    refine ⟨old, hold, ?_, fun inputs es h => ?_⟩
    · rintro rfl
      exact htimes (hconsistent.timely_of_belongs hread hbelongs)
    · have hsound : s.evolver.Sound (law old) := hbelongs.entries _ hconsistent.settings
      refine (Evolver.eq_of_evolve_eq_ok hrefresh h).imp fun input e he q hq hcontains => ?_
      rw [PersistentCache.contains, Option.isSome_iff_exists] at hcontains
      obtain ⟨known, hknown⟩ := hcontains
      rw [he q hq known (by rw [hkeep htimes]; exact hknown)]
      exact hsound.exists_naive hknown

/-- The law of a rule that voices one stop, and a directory with nothing but that rule. -/
def voicing : String → Law := fun _ _ _ word =>
  let voiced := String.ofList (word.toList.map fun c => if c = 't' then 'd' else c)
  .ok (voiced, voiced)

def voicingText : String :=
  "sonorization:\n  t => d\n"

def voicingFiles : FileStore where
  workDir := ["work"]
  nodes := [(["work"], .directory 0), (["work", "changes.lsc"], .file ⟨voicingText, 0, false⟩)]
  clock := 1

theorem Site.reached_voicing {σ : Type} (engine : Engine σ) (running : σ → Option String) (state : σ)
    (hidle : running state = none) : Reached engine running {voicingText} ⟨"changes.lsc"⟩ ⟨"cache"⟩
      ⟨voicingFiles, .opened voicingFiles ⟨"changes.lsc"⟩ ⟨"cache"⟩ state true⟩ := by
  have hread : voicingFiles.read ⟨"changes.lsc"⟩ = .ok voicingText := by decide
  have hevolved : voicingFiles.node? (voicingFiles.target (Evolver.evolvedFile ⟨"cache"⟩)) = none := by
    decide
  have htraces : voicingFiles.node? (voicingFiles.target (Evolver.tracesFile ⟨"cache"⟩)) = none := by
    decide
  exact .opened voicingFiles voicingText (Set.mem_singleton _) hread (fun f => hevolved ▸ nofun)
    (fun f => htraces ▸ nofun) state true hidle

/-- A second opening answers like the first. -/
theorem evolve_eq_naive_reopened : ∃ s : Site (Option String),
    s.Reached (.ofLaw voicing ⟨"changes.lsc"⟩) id {voicingText} ⟨"changes.lsc"⟩ ⟨"cache"⟩ ∧
    s.evolver.Timely s.files ∧
    ((Evolver.evolve (.ofLaw voicing ⟨"changes.lsc"⟩) s.files [.text "ata"]).result s.evolver).1 =
      .ok [⟨"ata", "ada", "ada"⟩] := by
  have hengine := Engine.wordWise_ofLaw voicing ⟨"changes.lsc"⟩
  have hsingle : Set.Subsingleton {voicingText} := Set.subsingleton_singleton
  have hdigest : Set.InjOn textDigest {voicingText} := Set.injOn_singleton _ _
  have hopened := Site.reached_voicing (.ofLaw voicing ⟨"changes.lsc"⟩) id none rfl
  have hcalled := hopened.step (.evolve _ [.text "ata"]
    ((Site.upheld_of_reached hengine hdigest hopened).timely hsingle))
  have hreopened := hcalled.step (.reopen _ none true rfl)
  have hupheld := Site.upheld_of_reached hengine hdigest hreopened
  obtain ⟨text, htext, hread'⟩ := hupheld.files.readable
  rw [Set.mem_singleton_iff] at htext
  subst htext
  have htimely := hupheld.timely hsingle
  exact ⟨_, hreopened, htimely, ((evolve_eq_naive hengine hdigest hreopened hread').1 htimely
    [.text "ata"] _).2 (.cons ⟨_, rfl, rfl⟩ .nil)⟩

end Etymon
