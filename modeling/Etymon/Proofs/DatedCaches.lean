import Etymon.Proofs.FailedValidation
import Etymon.Proofs.Memos
import Etymon.Proofs.Settling

/-!
# Caches that can be dated

A session may be opened while there is no rule file, or one that cannot be read. What its cache holds
can be dated all the same: either to one text of the rule file, whose checksum the stamps hold, or to a
time without a rule file, from which there are no entries. Saving and opening keep this, whatever is
edited between.

## Main definitions

* `PersistentCache.Dated`: what a cache holds can be dated.
* `FileStore.StoresDated`: so can what the file of the evolved forms holds.
* `Evolver.Dated`: an evolver that is ready, with a cache that can be dated.
* `Evolver.Placed`: an evolver that is ready, whatever its caches hold.
* `Evolver.Reaches`: refreshing brings the cache to a text.

## Main results

* `Evolver.dated_opened`: an evolver can be dated as it is opened.
* `Evolver.Dated.reaches`: it reaches the present text, if times do not mislead.
* `Evolver.Placed.evolve_of_reaches`: what a call gives and leaves that reaches its text.
-/

namespace Etymon

/-! ## Caches -/

namespace PersistentCache

variable {law : String → Law} {texts : Set String} {files : FileStore} {p : Path} {text : String}
  {saved saved' : Saved Query Evolved} {c c' : PersistentCache Query Evolved}

/-- There are no entries, and the stamps are those of a missing rule file, if any. -/
structure Vacant (saved : Saved Query Evolved) : Prop where
  entries : saved.entries = []
  hashes : ∀ item ∈ saved.hashes.items, item.2 = FileStore.missingChecksum
  times : ∀ item ∈ saved.times.items, item.2 < 18446744073709551616

/-- The entries belong to one of the texts, or there are none. -/
def Dated (law : String → Law) (texts : Set String) (saved : Saved Query Evolved) : Prop :=
  (∃ text ∈ texts, Belongs law text saved) ∨ Vacant saved

theorem Dated.times (h : Dated law texts saved) :
    ∀ item ∈ saved.times.items, item.2 < 18446744073709551616 := by
  rcases h with ⟨text, -, hbelongs⟩ | hvacant
  · exact hbelongs.times
  · exact hvacant.times

/-- Entries can be dated by their stamps; times do not matter. -/
theorem Dated.of_hashes (h : Dated law texts saved) (hsettings : saved'.settings = saved.settings)
    (hentries : saved'.entries = saved.entries) (hhashes : saved'.hashes = saved.hashes)
    (htimes : ∀ item ∈ saved'.times.items, item.2 < 18446744073709551616) :
    Dated law texts saved' := by
  rcases h with ⟨text, htext, hbelongs⟩ | hvacant
  · refine .inl ⟨text, htext, fun syllables hsyllables => ?_, hhashes ▸ hbelongs.hashes, htimes⟩
    rw [hentries]
    exact hbelongs.entries syllables (hsettings ▸ hsyllables)
  · exact .inr ⟨hentries.trans hvacant.entries, hhashes ▸ hvacant.hashes, htimes⟩

/-- Entries can be left out. -/
theorem Dated.dropped (h : Dated law texts saved) : Dated law texts { saved with entries := [] } := by
  rcases h with ⟨text, htext, hbelongs⟩ | hvacant
  · exact .inl ⟨text, htext, fun _ _ => List.forall_mem_nil _, hbelongs.hashes, hbelongs.times⟩
  · exact .inr ⟨rfl, hvacant.hashes, hvacant.times⟩

theorem dated_of_stampless (law : String → Law) (texts : Set String) (hentries : saved.entries = [])
    (hhashes : saved.hashes = .empty) (htimes : ∀ item ∈ saved.times.items, item.2 < 18446744073709551616) :
    Dated law texts saved :=
  .inr ⟨hentries, hhashes ▸ List.forall_mem_nil _, htimes⟩

theorem dated_of_stamped (htexts : ∀ text, files.read p = .ok text → text ∈ texts)
    (hentries : c.entries = []) (hstamped : c.Stamped files [p]) : Dated law texts c.contents := by
  cases hread : files.read p with
  | ok text => exact .inl ⟨text, htexts text hread, belongs_of_stamped hread hentries hstamped⟩
  | error fault =>
    refine .inr ⟨hentries, fun item hitem => ?_, fun item hitem => ?_⟩
    · obtain ⟨q, hq, -, hsum⟩ := hstamped.2 item hitem
      rw [List.mem_singleton] at hq
      rcases FileStore.checksum_eq_ok_iff.1 (hq ▸ hsum) with ⟨text, hok, -⟩ | ⟨-, hmissing⟩
      · cases hread.symm.trans hok
      · exact hmissing
    · obtain ⟨q, -, rfl⟩ := hstamped.1 item hitem
      exact files.modified_lt q

theorem dated_revalidate (htexts : ∀ text, files.read p = .ok text → text ∈ texts)
    (hsources : c.sources = [p]) (hc : Dated law texts c.contents) {dropped : Bool}
    (h : c.revalidate files = (.ok dropped, c')) : Dated law texts c'.contents := by
  obtain ⟨halike, ⟨hentries, hhashes, -, -, htimes⟩ | ⟨hentries, hstamped⟩⟩ := revalidate_eq_ok h
  · refine hc.of_hashes halike.2.2 hentries hhashes fun item hitem => ?_
    rcases htimes item hitem with hold | ⟨q, hq⟩
    · exact hc.times item hold
    · rw [hq]
      exact files.modified_lt q
  · exact dated_of_stamped htexts hentries (hsources ▸ hstamped)

/-- Where the rule file can be stamped, a cache that does not pass is stamped anew. -/
theorem dated_revalidate_of_not_passes (htexts : ∀ text, files.read p = .ok text → text ∈ texts)
    (hsources : c.sources = [p]) (hnot : ¬ c.Passes files) {dropped : Bool}
    (h : c.revalidate files = (.ok dropped, c')) : Dated law texts c'.contents := by
  obtain ⟨-, ⟨-, -, hsame, hvouches, -⟩ | ⟨hentries, hstamped⟩⟩ := revalidate_eq_ok h
  · exact absurd ⟨hsame, hvouches⟩ hnot
  · exact dated_of_stamped htexts hentries (hsources ▸ hstamped)

/-- Stamping a single source that cannot be read leaves its time and no checksum. -/
theorem eq_of_restamp_eq_error {e : Error} (hsources : c.sources = [p])
    (h : c.restamp files = (.error e, c')) :
    c' = { c with times := SortedMap.empty.insert (sourceKey files p) (files.modified p), hashes := .empty } := by
  rw [restamp, hsources, stampAll] at h
  split at h
  · cases h
    rw [hsources]
  · cases h

theorem dated_dropped_of_revalidate_eq_error (hsources : c.sources = [p])
    (hc : Dated law texts c.contents) {e : Error} (h : c.revalidate files = (.error e, c')) :
    Dated law texts { c' with entries := [] }.contents := by
  rcases revalidate_eq_error h with ⟨-, rfl⟩ | ⟨-, hstamp⟩
  · exact hc.dropped
  · rw [eq_of_restamp_eq_error hsources hstamp]
    refine dated_of_stampless law texts rfl rfl fun item hitem => ?_
    rcases SortedMap.mem_items_insert hitem with rfl | hitem
    · exact files.modified_lt p
    · cases hitem

/-- The file that a cache is saved to can be dated like the cache. -/
theorem dated_of_saved? (hc : Dated law texts c.contents)
    (h : saved? Query.codec Evolved.codec (c.toJson Query.codec Evolved.codec).write = some saved) :
    Dated law texts saved := by
  rcases hc with ⟨text, htext, hbelongs⟩ | hvacant
  · exact .inl ⟨text, htext, belongs_of_saved? hbelongs h⟩
  · rw [saved?_write Query.codec_faithful Evolved.codec_faithful hvacant.times] at h
    split at h
    · rw [Option.some.injEq] at h
      subst h
      refine .inr ⟨?_, hvacant.hashes, hvacant.times⟩
      change c.entries.foldl _ [] = []
      rw [show c.entries = [] from hvacant.entries]
      rfl
    · cases h

/-- Where there is a rule file, a cache without entries from before is stamped anew. -/
theorem belongs_revalidate_of_vacant (law : String → Law) (hread : files.read p = .ok text)
    (hsources : c.sources = [p]) (hc : Vacant c.contents) (htimes : c.TimesTell files) {dropped : Bool}
    (h : c.revalidate files = (.ok dropped, c')) : Belongs law text c'.contents := by
  obtain ⟨-, ⟨-, -, hsame, hvouches, -⟩ | ⟨hentries, hstamped⟩⟩ := revalidate_eq_ok h
  · have hp : p ∈ c.sources := by simp [hsources]
    obtain ⟨hash, hsum, hhash⟩ : ∃ hash, files.checksum p = .ok hash ∧
        c.hashes.get? (sourceKey files p) = some hash := by
      rcases hvouches p hp with htime | hhash
      · exact htimes hsame p hp htime
      · exact hhash
    rw [FileStore.checksum_eq hread, Except.ok.injEq] at hsum
    -- stamps that pass would have to be those of the rule file, which is no longer missing
    have hmissing : hash = FileStore.missingChecksum := hc.hashes _ (mem_of_lookup_eq_some hhash)
    exact absurd (hsum.trans hmissing) (FileStore.sha256_ne_missingChecksum _)
  · exact belongs_of_stamped hread hentries (hsources ▸ hstamped)

/-- A validated cache belongs to the present text, if its times tell texts apart. -/
theorem belongs_revalidate_of_dated (hdigest : Set.InjOn textDigest texts) (htext : text ∈ texts)
    (hread : files.read p = .ok text) (hsources : c.sources = [p]) (hc : Dated law texts c.contents)
    (htimes : c.TimesTell files) {dropped : Bool} (h : c.revalidate files = (.ok dropped, c')) :
    Belongs law text c'.contents := by
  rcases hc with ⟨old, hold, hbelongs⟩ | hvacant
  · obtain ⟨_, _, hresult, -, htell, -⟩ :=
      belongs_revalidate hdigest hold htext hread hsources hbelongs
    cases h.symm.trans hresult
    exact htell htimes
  · exact belongs_revalidate_of_vacant law hread hsources hvacant htimes h

/-! ### Opening -/

/-- Stamps that were just taken tell texts apart. -/
theorem timesTell_of_stamped (hstamped : c.Stamped files [p]) (hsources : c.sources = [p]) :
    c.TimesTell files := by
  intro hsame q hq _
  rw [hsources, List.mem_singleton] at hq
  subst hq
  rw [sameSources, Bool.and_eq_true, List.all_eq_true] at hsame
  have hcontains := hsame.2 q (by simp [hsources])
  rw [SortedMap.contains, Option.isSome_iff_exists] at hcontains
  obtain ⟨hash, hhash⟩ := hcontains
  obtain ⟨q', hq', -, hsum⟩ := hstamped.2 _ (mem_of_lookup_eq_some hhash)
  rw [List.mem_singleton] at hq'
  exact ⟨hash, hq' ▸ hsum, hhash⟩

theorem sameSources_of_no_hashes (files : FileStore) (hhashes : c.hashes = .empty)
    (hsources : c.sources = [p]) : c.sameSources files = false := by
  simp [sameSources, hsources, hhashes, SortedMap.size, SortedMap.empty]

/-- Without a checksum the times count for nothing. -/
theorem timesTell_of_no_hashes (hhashes : c.hashes = .empty) (hsources : c.sources = [p]) :
    c.TimesTell files := by
  intro hsame
  cases (sameSources_of_no_hashes files hhashes hsources).symm.trans hsame

end PersistentCache

/-- What the file of the evolved forms holds can be dated. -/
def FileStore.StoresDated (law : String → Law) (texts : Set String) (cacheDir : Path)
    (files : FileStore) : Prop :=
  ∀ f, files.node? (files.target (Evolver.evolvedFile cacheDir)) = some (.file f) →
    ∀ saved, PersistentCache.saved? Query.codec Evolved.codec f.text = some saved →
      PersistentCache.Dated law texts saved

namespace PersistentCache

variable {law : String → Law} {texts : Set String} {files : FileStore} {rulesPath cacheDir : Path}

theorem dated_blank (law : String → Law) (texts : Set String) (settings : String) :
    Dated law texts ⟨settings, [], .empty, .empty⟩ :=
  dated_of_stampless law texts rfl rfl (List.forall_mem_nil _)

theorem dated_evolvedOnDisk (hstores : files.StoresDated law texts cacheDir) (rulesPath : Path)
    (syllables : Bool) :
    Dated law texts (evolvedOnDisk files rulesPath cacheDir syllables).contents := by
  rw [evolvedOnDisk, ofFile]
  split
  · exact dated_blank law texts _
  · next hread =>
    split
    · exact dated_blank law texts _
    · next saved hsaved =>
      obtain ⟨f, hfind, rfl⟩ := FileStore.exists_find_of_read hread
      have hdated := hstores f (FileStore.find_eq_ok_iff.1 hfind).2 saved hsaved
      split
      · next hsettings => exact hdated.of_hashes hsettings.symm rfl rfl hdated.times
      · exact dated_blank law texts _

theorem dated_load (htexts : ∀ text, files.read rulesPath = .ok text → text ∈ texts)
    (hstores : files.StoresDated law texts cacheDir) (syllables : Bool) :
    Dated law texts (load Query.codec Evolved.codec files (Evolver.evolvedFile cacheDir) [rulesPath]
      (Evolver.settings syllables)).contents := by
  have hsources := (alike_ofFile Query.codec Evolved.codec files (Evolver.evolvedFile cacheDir)
    [rulesPath] (Evolver.settings syllables)).2.1
  have hdisk := dated_evolvedOnDisk hstores rulesPath syllables
  rw [load]
  split
  · next hresult => exact dated_revalidate htexts hsources hdisk hresult
  · next hresult => exact dated_dropped_of_revalidate_eq_error hsources hdisk hresult

/-- What a file holds that does not pass counts for nothing. -/
theorem dated_load_of_not_passes (htexts : ∀ text, files.read rulesPath = .ok text → text ∈ texts)
    (hsum : ∃ hash, files.checksum rulesPath = .ok hash) {syllables : Bool}
    (hnot : ¬ (evolvedOnDisk files rulesPath cacheDir syllables).Passes files) :
    Dated law texts (load Query.codec Evolved.codec files (Evolver.evolvedFile cacheDir) [rulesPath]
      (Evolver.settings syllables)).contents := by
  have hsources := (alike_ofFile Query.codec Evolved.codec files (Evolver.evolvedFile cacheDir)
    [rulesPath] (Evolver.settings syllables)).2.1
  have hsums : ∀ q ∈ (evolvedOnDisk files rulesPath cacheDir syllables).sources,
      ∃ hash, files.checksum q = .ok hash := by
    rw [evolvedOnDisk, hsources, List.forall_mem_singleton]
    exact hsum
  obtain ⟨dropped, c, hresult⟩ := exists_revalidate_eq_ok hsums
  rw [load_eq hresult]
  exact dated_revalidate_of_not_passes htexts hsources hnot hresult

/-- A cache that is opened without its file has new stamps, if any. -/
theorem timesTell_load_of_no_file {path : Path} {settings : String}
    (hnone : ∀ text, files.read path ≠ .ok text) :
    (load Query.codec Evolved.codec files path [rulesPath] settings).TimesTell files := by
  obtain ⟨c, hfile, hhashes, hsources⟩ : ∃ c : PersistentCache Query Evolved,
      ofFile Query.codec Evolved.codec files path [rulesPath] settings = c ∧ c.hashes = .empty ∧
        c.sources = [rulesPath] := by
    rw [ofFile]
    split
    · exact ⟨_, rfl, rfl, rfl⟩
    · next text hread => exact absurd hread (hnone text)
  have hsame := sameSources_of_no_hashes files hhashes hsources
  rw [load, hfile]
  split
  · next dropped c' hresult =>
    obtain ⟨halike, ⟨-, -, hpasses, -⟩ | ⟨-, hstamped⟩⟩ := revalidate_eq_ok hresult
    · cases hsame.symm.trans hpasses
    · exact timesTell_of_stamped (hsources ▸ hstamped) (halike.2.1.trans hsources)
  · next e c' hresult =>
    rcases revalidate_eq_error hresult with ⟨⟨hpasses, -⟩, -⟩ | ⟨-, hstamp⟩
    · cases hsame.symm.trans hpasses
    · rw [eq_of_restamp_eq_error hsources hstamp]
      exact timesTell_of_no_hashes rfl hsources

end PersistentCache

/-! ### Saving -/

/-- Saving the cache writes its file. -/
def PersistentCache.Writes (files : FileStore) (c : PersistentCache Query Evolved) : Prop :=
  c.unsaved = true ∧ (c.save Query.codec Evolved.codec files).1 = .ok ()

namespace FileStore.StoresDated

variable {law : String → Law} {texts : Set String} {cacheDir : Path} {files files' : FileStore}

theorem putTraces (h : files.StoresDated law texts cacheDir) {other : String}
    (hputs : files.Puts files' (files.target (Evolver.tracesFile cacheDir)) other) :
    files'.StoresDated law texts cacheDir := by
  intro f hf saved hsaved
  rw [hputs.target_eq] at hf
  rcases hputs.files hf with hold | ⟨heq, -⟩
  · exact h f hold saved hsaved
  · exact absurd heq (Evolver.target_evolvedFile_ne files cacheDir)

/-- What is written can be dated like the cache, and what is not written like the file before. -/
theorem save {c : PersistentCache Query Evolved} (hpath : c.path = Evolver.evolvedFile cacheDir)
    (hwritten : c.Writes files → PersistentCache.Dated law texts c.contents)
    (hkept : ¬ c.Writes files → files.StoresDated law texts cacheDir) :
    (c.save Query.codec Evolved.codec files).2.1.StoresDated law texts cacheDir := by
  rcases c.save_cases Query.codec Evolved.codec files with ⟨hsave, hunsaved⟩ |
    ⟨e, left, hsave, -, hputs⟩ | ⟨left, hsave, hread, hunsaved⟩
  · rw [hsave]
    exact hkept fun hwrites => Bool.false_ne_true (hunsaved.symm.trans hwrites.1)
  · have hnot : ¬ c.Writes files := fun hwrites => by
      have hok := hwrites.2
      rw [hsave] at hok
      cases hok
    rw [hsave]
    exact (hkept hnot).putTraces (hputs _ "")
  · rw [hsave]
    intro f hf saved hsaved
    obtain ⟨g, hfind, hg⟩ := FileStore.exists_find_of_read hread
    rw [hpath] at hfind
    cases (FileStore.find_eq_ok_iff.1 hfind).2.symm.trans hf
    exact PersistentCache.dated_of_saved? (hwritten ⟨hunsaved, by rw [hsave]⟩) (hg ▸ hsaved)

end FileStore.StoresDated

/-! ## Evolvers -/

namespace Evolver

variable {σ : Type} {engine : Engine σ} {law : String → Law} {running : σ → Option String}
  {texts : Set String} {rulesPath cacheDir : Path} {files files' : FileStore} {text : String}
  {u v w : Evolver σ}

/-- An evolver that is ready, whose caches are kept in the given directory and can be dated. Once it has
been called, the checksum at the last call is that of the text that the cache belongs to. -/
structure Dated (law : String → Law) (running : σ → Option String) (texts : Set String)
    (rulesPath cacheDir : Path) (v : Evolver σ) : Prop where
  ready : v.Ready running texts rulesPath
  settings : v.evolved.settings = settings v.syllables
  evolvedPath : v.evolved.path = evolvedFile cacheDir
  tracesPath : v.traces.path = tracesFile cacheDir
  content : v.rulesHash = none ∧ PersistentCache.Dated law texts v.evolved.contents ∨
    ∃ text ∈ texts, v.rulesHash = some (textDigest text) ∧
      PersistentCache.Belongs law text v.evolved.contents

/-- An evolver that is ready and whose caches are kept in the given directory, whatever they hold. -/
structure Placed (running : σ → Option String) (texts : Set String) (rulesPath cacheDir : Path)
    (v : Evolver σ) : Prop where
  ready : v.Ready running texts rulesPath
  settings : v.evolved.settings = settings v.syllables
  evolvedPath : v.evolved.path = evolvedFile cacheDir
  tracesPath : v.traces.path = tracesFile cacheDir

theorem Dated.placed (hv : v.Dated law running texts rulesPath cacheDir) :
    v.Placed running texts rulesPath cacheDir :=
  ⟨hv.ready, hv.settings, hv.evolvedPath, hv.tracesPath⟩

theorem Placed.dated (hv : v.Placed running texts rulesPath cacheDir)
    (hcontent : v.rulesHash = none ∧ PersistentCache.Dated law texts v.evolved.contents ∨
      ∃ text ∈ texts, v.rulesHash = some (textDigest text) ∧
        PersistentCache.Belongs law text v.evolved.contents) :
    v.Dated law running texts rulesPath cacheDir :=
  ⟨hv.ready, hv.settings, hv.evolvedPath, hv.tracesPath, hcontent⟩

theorem placed_opened (files : FileStore) (rulesPath cacheDir : Path) {state : σ}
    (hidle : running state = none) (syllables : Bool) :
    (opened files rulesPath cacheDir state syllables).Placed running texts rulesPath cacheDir :=
  ⟨ready_opened files rulesPath cacheDir hidle syllables, (PersistentCache.alike_load _ _ _ _ _ _).2.2,
    (PersistentCache.alike_load _ _ _ _ _ _).1, (PersistentCache.alike_load _ _ _ _ _ _).1⟩

theorem Dated.contents (hv : v.Dated law running texts rulesPath cacheDir) :
    PersistentCache.Dated law texts v.evolved.contents := by
  rcases hv.content with ⟨-, hdated⟩ | ⟨text, htext, -, hbelongs⟩
  · exact hdated
  · exact .inl ⟨text, htext, hbelongs⟩

/-- After its first call an evolver no longer goes by times. -/
theorem timely_of_rulesHash {hash : String} (h : v.rulesHash = some hash) (files : FileStore) :
    v.Timely files := by
  intro hnone
  cases h.symm.trans hnone

theorem dated_opened (htexts : ∀ text, files.read rulesPath = .ok text → text ∈ texts)
    (hstores : files.StoresDated law texts cacheDir) {state : σ} (hidle : running state = none)
    (syllables : Bool) :
    (opened files rulesPath cacheDir state syllables).Dated law running texts rulesPath cacheDir :=
  (placed_opened files rulesPath cacheDir hidle syllables).dated
    (.inl ⟨rfl, PersistentCache.dated_load htexts hstores syllables⟩)

theorem timely_opened (hnone : ∀ text, files.read (evolvedFile cacheDir) ≠ .ok text)
    (rulesPath : Path) (state : σ) (syllables : Bool) :
    (opened files rulesPath cacheDir state syllables).Timely files :=
  fun _ => PersistentCache.timesTell_load_of_no_file hnone

/-! ### Calls -/

/-- Refreshing succeeds, and brings an evolver and its cache to a text. -/
def Reaches (engine : Engine σ) (law : String → Law) (running : σ → Option String) (texts : Set String)
    (files : FileStore) (text : String) (v : Evolver σ) : Prop :=
  ∃ w, (refresh engine files).result v = (.ok (RuleOrder.parse text), w) ∧
    Refreshed running texts text v w ∧ PersistentCache.Belongs law text w.evolved.contents

/-- An evolver that can be dated, has times that do not mislead and joins words in the given way. -/
structure OnTime (law : String → Law) (running : σ → Option String) (texts : Set String)
    (rulesPath cacheDir : Path) (files : FileStore) (syllables : Bool) (v : Evolver σ) : Prop where
  dated : v.Dated law running texts rulesPath cacheDir
  timely : v.Timely files
  syllables : v.syllables = syllables

section

variable (hengine : engine.WordWise law rulesPath running) (htext : text ∈ texts)
  (hread : files.read rulesPath = .ok text)
include hengine htext hread

/-- If times do not mislead, an evolver that can be dated reaches the present text. -/
theorem Dated.reaches (hdigest : Set.InjOn textDigest texts)
    (hv : v.Dated law running texts rulesPath cacheDir) (htimes : v.Timely files) :
    v.Reaches engine law running texts files text := by
  obtain ⟨w, hresult, hw, hfirst, hunchanged, hchanged⟩ :=
    hv.ready.exists_refresh hengine.reset hdigest htext hread
  refine ⟨w, hresult, hw, ?_⟩
  rcases hv.content with ⟨hnone, hdated⟩ | ⟨old, hold, hhash, hbelongs⟩
  · obtain ⟨dropped, hvalidated⟩ := hfirst hnone
    exact PersistentCache.belongs_revalidate_of_dated hdigest htext hread hv.ready.evolvedSources hdated
      (htimes hnone) hvalidated
  · by_cases hsame : textDigest old = textDigest text
    · have heq : old = text := hdigest hold htext hsame
      subst heq
      rw [hunchanged hhash]
      exact hbelongs
    · obtain ⟨c, hresult', -, hc⟩ :=
        PersistentCache.belongs_clear law hread hv.ready.evolvedSources
      cases (hchanged _ hhash hsame).symm.trans hresult'
      exact hc

/-- A call, whether or not it succeeds, leaves a cache that belongs to the text that was reached. -/
theorem Placed.call_of_reaches (hv : v.Placed running texts rulesPath cacheDir)
    (hreaches : v.Reaches engine law running texts files text) (trace : Bool)
    (inputs : List Evolvable) : ((call engine files trace inputs).result v).2.OnTime law running texts
      rulesPath cacheDir files v.syllables := by
  obtain ⟨w, hrefresh, hw, hc⟩ := hreaches
  obtain ⟨batches, outcome, hwindow, hruns⟩ := exists_runs_call hrefresh trace inputs
  obtain ⟨hsound, htuned⟩ := hruns.sound hengine hread hwindow (hw.sound hv.settings hc) hw.tuned
  have hsettled := hruns.settled_eq
  obtain ⟨hready, hhash, halike, halike'⟩ := hv.ready.of_settled htext hw htuned hsettled
  have hsyllables := (syllables_eq_of_settled hsettled).trans hw.syllables
  have hsettings := halike.2.2.trans (hv.settings.trans (congrArg Evolver.settings hsyllables.symm))
  have hplaced : ((call engine files trace inputs).result v).2.Placed running texts rulesPath cacheDir :=
    ⟨hready, hsettings, halike.1.trans hv.evolvedPath, halike'.1.trans hv.tracesPath⟩
  exact ⟨hplaced.dated (.inr ⟨text, htext, hhash, belongs_of_settled hsettings hc hsound hsettled⟩),
    timely_of_rulesHash hhash files, hsyllables⟩

/-- A call evolves each input the plain way, and leaves an evolver whose next call does. -/
theorem Placed.evolve_of_reaches (hv : v.Placed running texts rulesPath cacheDir)
    (hreaches : v.Reaches engine law running texts files text) (inputs : List Evolvable) :
    ∃ answer u, (Evolver.evolve engine files inputs).result v = (answer, u) ∧
      u.OnTime law running texts rulesPath cacheDir files v.syllables ∧
      ∀ es, answer = .ok es ↔ List.Forall₂ (fun input e => ∃ q,
        Query.ofForm (.parse text) (input.arranged (.parse text)) = .ok q ∧
          q.naive (law text) v.syllables = .ok e) inputs es := by
  have hleft := hv.call_of_reaches hengine htext hread hreaches false inputs
  rw [(snd_result_call engine files inputs v).1] at hleft
  obtain ⟨w, hrefresh, hw, hc⟩ := hreaches
  refine ⟨_, _, Prod.mk.eta.symm, hleft, fun es => ?_⟩
  rw [evolve_eq_ok_iff hengine hread hrefresh (hw.sound hv.settings hc) hw.tuned, hw.syllables]

/-- Calls keep an evolver on time. -/
theorem OnTime.call {syllables : Bool} (hdigest : Set.InjOn textDigest texts)
    (hv : v.OnTime law running texts rulesPath cacheDir files syllables) (trace : Bool)
    (inputs : List Evolvable) : ((call engine files trace inputs).result v).2.OnTime law running texts
      rulesPath cacheDir files syllables := by
  obtain ⟨hdated, htimes, rfl⟩ := hv
  exact hdated.placed.call_of_reaches hengine htext hread
    (hdated.reaches hengine htext hread hdigest htimes) trace inputs

end

/-! ### Saving -/

/-- Saving leaves an evolver as it is. -/
theorem Placed.flush (hv : v.Placed running texts rulesPath cacheDir) (files : FileStore) :
    (v.flush files).2.2.Placed running texts rulesPath cacheDir ∧
      (v.flush files).2.2.syllables = v.syllables := by
  obtain ⟨-, unsaved, unsaved', hflushed⟩ := v.puts_flush files
  have hready := hv.ready.flush files
  rw [hflushed] at hready ⊢
  exact ⟨⟨hready, hv.settings, hv.evolvedPath, hv.tracesPath⟩, rfl⟩

theorem Dated.flush (hv : v.Dated law running texts rulesPath cacheDir) (files : FileStore) :
    (v.flush files).2.2.Dated law running texts rulesPath cacheDir := by
  obtain ⟨-, unsaved, unsaved', hflushed⟩ := v.puts_flush files
  have hcontent := hv.content
  refine (hv.placed.flush files).1.dated ?_
  rw [hflushed]
  exact hcontent

section

variable (hv : v.Placed running texts rulesPath cacheDir)
  (hwritten : v.evolved.Writes files → PersistentCache.Dated law texts v.evolved.contents)
  (hkept : ¬ v.evolved.Writes files → files.StoresDated law texts cacheDir)
include hv hwritten hkept

theorem storesDated_flush : (v.flush files).2.1.StoresDated law texts cacheDir := by
  have hsaved := FileStore.StoresDated.save hv.evolvedPath hwritten hkept
  rw [Evolver.flush]
  rcases hsave : v.evolved.save Query.codec Evolved.codec files with ⟨e | _, left, evolved⟩
  · rw [hsave] at hsaved
    exact hsaved
  · rw [hsave] at hsaved
    have htraces := (v.traces.puts_save Query.codec TraceLine.codec left).1
    rw [hv.tracesPath] at htraces
    exact hsaved.putTraces htraces

theorem storesDated_close : (v.close files).StoresDated law texts cacheDir := by
  have htraces := (v.traces.puts_save Query.codec TraceLine.codec
    (v.evolved.close Query.codec Evolved.codec files)).1
  rw [hv.tracesPath] at htraces
  exact (FileStore.StoresDated.save hv.evolvedPath hwritten hkept).putTraces htraces

end

end Evolver

end Etymon
