import Etymon.Proofs.Calls
import Etymon.Proofs.Histories

/-!
# Caches under an unchanged rule file

As long as the rule file keeps its text, a cache keeps its entries: validating it drops nothing, and
the file that it was saved to gives back its keys.

## Main definitions

* `PersistentCache.Kept`: entries of a kind, stamped with one text of the rule file.
* `PersistentCache.IsSaved`: the file of a cache gives back its keys.
* `PersistentCache.Standing`: a cache that is kept, in memory and in its file.

## Main results

* `PersistentCache.Standing.revalidate`: validating drops nothing.
* `PersistentCache.Standing.save`: what is saved can be read back.
-/

namespace Etymon

namespace PersistentCache

variable {κ ν : Type} {keys : Codec κ} {values : Codec ν} {good : String → κ → ν → Prop}
  {stamp : String × String} {p : Path} {text : String} {files files' : FileStore}
  {c : PersistentCache κ ν} {saved : Saved κ ν}

/-! ## Stamps -/

/-- The entries are of a kind, which may depend on the settings, and the only source was stamped. -/
structure Kept (good : String → κ → ν → Prop) (stamp : String × String) (saved : Saved κ ν) :
    Prop where
  entries : ∀ entry ∈ saved.entries, good saved.settings entry.1 entry.2
  hashes : saved.hashes.items = [stamp]
  times : ∀ item ∈ saved.times.items, item.2 < 18446744073709551616

/-- The stamp of a file with a text: its canonical path and its checksum. -/
def stampOf (files : FileStore) (p : Path) (text : String) : String × String :=
  ((FileStore.absolute (files.target p)).text, textDigest text)

theorem sourceKey_of_read (h : files.read p = .ok text) :
    sourceKey files p = (stampOf files p text).1 := by
  obtain ⟨f, hfind, -⟩ := FileStore.exists_find_of_read h
  rw [sourceKey, FileStore.canonical, hfind]
  rfl

theorem stampOf_eq_of_puts {l : Location} {other : String} (h : files.Puts files' l other) (p : Path)
    (text : String) : stampOf files' p text = stampOf files p text := by
  rw [stampOf, stampOf, h.target_eq]

/-- Under the text that it was stamped with, a cache keeps its entries and at most renews its times. -/
theorem revalidate_of_kept (hread : files.read p = .ok text) (hsources : c.sources = [p])
    (hc : Kept good (stampOf files p text) c.contents) : ∃ times unsaved,
    c.revalidate files = (.ok false, { c with times, unsaved }) ∧
      (∀ item ∈ times.items, item.2 < 18446744073709551616) ∧
      (unsaved = false → c.unsaved = false ∧ times = c.times) := by
  have hhashes : c.hashes.items = [stampOf files p text] := hc.hashes
  have hget : c.hashes.get? (sourceKey files p) = some (textDigest text) := by
    rw [SortedMap.get?, hhashes, sourceKey_of_read hread]
    simp [stampOf]
  have hsame : c.sameSources files = true := by
    simp [sameSources, hsources, SortedMap.size, hhashes, SortedMap.contains, hget]
  rw [revalidate, if_pos hsame, hsources]
  by_cases htime : c.times.get? (sourceKey files p) = some (files.modified p)
  · have hnone : c.renewals? files [p] = .ok (some []) := by
      rw [renewals?, if_pos htime, renewals?]
    rw [hnone]
    exact ⟨c.times, c.unsaved, by rw [← hsources], hc.times, fun h => ⟨h, rfl⟩⟩
  · have hrenewed : c.renewals? files [p] = .ok (some [(sourceKey files p, files.modified p)]) := by
      rw [renewals?, if_neg htime, FileStore.checksum_eq hread]
      simp [bind, Except.bind, pure, Except.pure, hget, renewals?]
    rw [hrenewed]
    refine ⟨c.times.insert (sourceKey files p) (files.modified p), true, by rw [← hsources]; rfl,
      fun item hitem => ?_, fun h => absurd h (by decide)⟩
    rcases SortedMap.mem_items_insert hitem with rfl | hitem
    · exact files.modified_lt p
    · exact hc.times item hitem

/-- A cache without stamps has to begin anew. -/
theorem revalidate_of_no_hashes (good : String → κ → ν → Prop) (hread : files.read p = .ok text)
    (hsources : c.sources = [p]) (hnone : c.hashes = .empty) :
    ∃ dropped c', c.revalidate files = (.ok dropped, c') ∧ c.Alike c' ∧ c'.unsaved = true ∧
      Kept good (stampOf files p text) c'.contents := by
  have hsame : c.sameSources files = false := by
    simp [sameSources, hsources, hnone, SortedMap.size, SortedMap.empty]
  have hkey := sourceKey_of_read hread
  have hstamp : c.restamp files = (.ok (), { c with
      times := (SortedMap.empty).insert (sourceKey files p) (files.modified p)
      hashes := (SortedMap.empty).insert (sourceKey files p) (textDigest text) }) := by
    simp [restamp, hsources, stampAll, FileStore.checksum_eq hread]
  rw [revalidate, hsame, if_neg Bool.false_ne_true, evict, hstamp]
  refine ⟨_, _, rfl, ⟨rfl, rfl, rfl⟩, rfl, List.forall_mem_nil _, ?_, fun item hitem => ?_⟩
  · change [(sourceKey files p, textDigest text)] = [stampOf files p text]
    rw [hkey]
    rfl
  · rcases SortedMap.mem_items_insert hitem with rfl | hitem
    · exact files.modified_lt p
    · cases hitem

/-! ## What is saved -/

variable [DecidableEq κ]

/-- The file of a cache gives back its settings and its keys, unless it is nested too deep for the
reader. -/
def IsSaved (keys : Codec κ) (values : Codec ν) (files : FileStore) (c : PersistentCache κ ν) :
    Prop :=
  ∃ text, files.read c.path = .ok text ∧ ((c.toJson keys values).depth ≤ Json.maxDepth →
    ∃ saved, saved? keys values text = some saved ∧ saved.settings = c.settings ∧
      ∀ key, c.contains key = true → (saved.entries.lookup key).isSome = true)

theorem isSome_lookup_setEntry {key other : κ} {value : ν} {entries : List (κ × ν)}
    (h : other = key ∨ (entries.lookup other).isSome = true) :
    ((setEntry key value entries).lookup other).isSome = true := by
  by_cases heq : other = key
  · rw [heq, lookup_setEntry_self]
    rfl
  · rw [lookup_setEntry_of_ne _ heq]
    exact h.resolve_left heq

theorem isSome_lookup_foldl_setEntry {key : κ} {entries known : List (κ × ν)}
    (h : (known.lookup key).isSome = true ∨ (entries.lookup key).isSome = true) :
    ((entries.foldl (fun known e => setEntry e.1 e.2 known) known).lookup key).isSome = true := by
  induction entries generalizing known with
  | nil => simpa using h
  | cons first rest ih =>
    refine ih ?_
    by_cases heq : key = first.1
    · exact .inl (isSome_lookup_setEntry (.inl heq))
    · rw [List.lookup_cons, beq_eq_false_iff_ne.2 heq] at h
      exact h.imp (fun hknown => isSome_lookup_setEntry (.inr hknown)) id

/-- What is read from the file of a cache is kept like the cache. -/
theorem kept_of_saved? (hkeys : keys.Faithful) (hvalues : values.Faithful)
    (hc : Kept good stamp c.contents)
    (h : saved? keys values (c.toJson keys values).write = some saved) : Kept good stamp saved := by
  rw [saved?_write hkeys hvalues hc.times] at h
  split at h
  · rw [Option.some.injEq] at h
    subst h
    refine ⟨fun entry hentry => ?_, hc.hashes, hc.times⟩
    rcases mem_foldl_setEntry hentry with hentry | hentry
    · cases hentry
    · exact hc.entries entry hentry
  · cases h

theorem isSaved_of_read (hkeys : keys.Faithful) (hvalues : values.Faithful)
    (hc : Kept good stamp c.contents) (hread : files.read c.path = .ok (c.toJson keys values).write) :
    c.IsSaved keys values files := by
  refine ⟨_, hread, fun hdepth => ?_⟩
  rw [saved?_write hkeys hvalues hc.times, if_pos hdepth]
  exact ⟨_, rfl, rfl, fun key hkey => isSome_lookup_foldl_setEntry (.inr hkey)⟩

theorem IsSaved.of_puts (h : c.IsSaved keys values files) {l : Location} {other : String}
    (hputs : files.Puts files' l other) (hl : files.target c.path ≠ l) :
    c.IsSaved keys values files' := by
  obtain ⟨text, hread, hback⟩ := h
  exact ⟨text, hputs.read_eq hread hl, hback⟩

/-! ## Standing caches -/

/-- A cache of the rule file is kept, and so is whatever can be read from its file. Unless something is
unsaved, the file gives back the cache. -/
structure Standing (keys : Codec κ) (values : Codec ν) (good : String → κ → ν → Prop)
    (rulesPath : Path) (text : String) (files : FileStore) (c : PersistentCache κ ν) : Prop where
  sources : c.sources = [rulesPath]
  kept : Kept good (stampOf files rulesPath text) c.contents
  stored : ∀ f, files.node? (files.target c.path) = some (.file f) → ∀ saved,
    saved? keys values f.text = some saved → Kept good (stampOf files rulesPath text) saved
  isSaved : c.unsaved = false → c.IsSaved keys values files

namespace Standing

variable {rulesPath : Path}

theorem insert (h : Standing keys values good rulesPath text files c) {key : κ} {value : ν}
    (hgood : good c.settings key value) :
    Standing keys values good rulesPath text files (c.insert key value) := by
  refine ⟨h.sources, ⟨fun entry hentry => ?_, h.kept.hashes, h.kept.times⟩, h.stored, nofun⟩
  rcases mem_setEntry hentry with rfl | hentry
  · exact hgood
  · exact h.kept.entries entry hentry

theorem insertAll {entries : List (κ × ν)} (h : Standing keys values good rulesPath text files c)
    (hgood : ∀ entry ∈ entries, good c.settings entry.1 entry.2) :
    Standing keys values good rulesPath text files (c.insertAll entries) := by
  induction entries generalizing c with
  | nil => exact h
  | cons entry rest ih =>
    rw [List.forall_mem_cons] at hgood
    exact ih (h.insert hgood.1) hgood.2

/-- Validating drops nothing. -/
theorem revalidate (h : Standing keys values good rulesPath text files c)
    (hread : files.read rulesPath = .ok text) : ∃ times unsaved,
    c.revalidate files = (.ok false, { c with times, unsaved }) ∧
      Standing keys values good rulesPath text files { c with times, unsaved } := by
  obtain ⟨times, unsaved, hresult, htimes, hsaved⟩ := revalidate_of_kept hread h.sources h.kept
  refine ⟨times, unsaved, hresult, h.sources, ⟨h.kept.entries, h.kept.hashes, htimes⟩, h.stored, ?_⟩
  intro hunsaved
  obtain ⟨hc, rfl⟩ := hsaved hunsaved
  exact h.isSaved hc

/-- Nothing that is written elsewhere makes a difference. -/
theorem of_puts (h : Standing keys values good rulesPath text files c) {l : Location} {other : String}
    (hputs : files.Puts files' l other) (hl : files.target c.path ≠ l) :
    Standing keys values good rulesPath text files' c := by
  refine ⟨h.sources, ?_, fun f hf saved hsaved => ?_, fun hsaved => (h.isSaved hsaved).of_puts hputs hl⟩
  · rw [stampOf_eq_of_puts hputs]
    exact h.kept
  · rw [stampOf_eq_of_puts hputs]
    rw [hputs.target_eq] at hf
    rcases hputs.files hf with hold | ⟨heq, -⟩
    · exact h.stored f hold saved hsaved
    · exact absurd heq hl

/-- A cache stands after it was to be saved; and if that succeeded, its file gives it back. -/
theorem save (hkeys : keys.Faithful) (hvalues : values.Faithful)
    (h : Standing keys values good rulesPath text files c) :
    Standing keys values good rulesPath text (c.save keys values files).2.1
      (c.save keys values files).2.2 ∧
    ((c.save keys values files).1 = .ok () →
      (c.save keys values files).2.2.IsSaved keys values (c.save keys values files).2.1) := by
  have hputs := (c.puts_save keys values files).1
  -- the file holds afterwards what it held before, or the cache
  have hstored : ∀ f, (c.save keys values files).2.1.node?
      ((c.save keys values files).2.1.target c.path) = some (.file f) → ∀ saved,
      saved? keys values f.text = some saved → Kept good (stampOf files rulesPath text) saved := by
    intro f hf saved hsaved
    rw [hputs.target_eq] at hf
    rcases hputs.files hf with hold | ⟨-, hnew⟩
    · exact h.stored f hold saved hsaved
    · exact kept_of_saved? hkeys hvalues h.kept (hnew ▸ hsaved)
  rw [← stampOf_eq_of_puts hputs rulesPath text] at hstored
  have hkept := h.kept
  rw [← stampOf_eq_of_puts hputs rulesPath text] at hkept
  rcases c.save_cases keys values files with ⟨hsave, hunsaved⟩ | ⟨e, left, hsave, hunsaved, -⟩ |
    ⟨left, hsave, hread, -⟩
  · rw [hsave]
    exact ⟨h, fun _ => h.isSaved hunsaved⟩
  · rw [hsave] at hstored hkept ⊢
    exact ⟨⟨h.sources, hkept, hstored, fun hsaved => by simp [hunsaved] at hsaved⟩, nofun⟩
  · rw [hsave] at hstored hkept ⊢
    have hback : ({ c with unsaved := false } : PersistentCache κ ν).IsSaved keys values left :=
      isSaved_of_read hkeys hvalues hkept hread
    exact ⟨⟨h.sources, hkept, hstored, fun _ => hback⟩, fun _ => hback⟩

end Standing

/-! ### Loading -/

theorem ofFile_of_saved? {path : Path} {sources : List Path} {settings : String}
    (hread : files.read path = .ok text) (hsaved : saved? keys values text = some saved)
    (hsettings : saved.settings = settings) : ofFile keys values files path sources settings =
      ⟨path, sources, settings, saved.entries, saved.times, saved.hashes, false⟩ := by
  simp [ofFile, hread, hsaved, hsettings]

/-- A cache begins with what was saved under its settings, or with nothing. -/
theorem ofFile_cases (keys : Codec κ) (values : Codec ν) (files : FileStore) (path : Path)
    (sources : List Path) (settings : String) :
    (∃ unsaved, ofFile keys values files path sources settings =
      ⟨path, sources, settings, [], .empty, .empty, unsaved⟩) ∨
    ∃ text saved, files.read path = .ok text ∧ saved? keys values text = some saved ∧
      saved.settings = settings ∧ ofFile keys values files path sources settings =
        ⟨path, sources, settings, saved.entries, saved.times, saved.hashes, false⟩ := by
  cases hread : files.read path with
  | error fault => exact .inl ⟨false, by simp [ofFile, hread]⟩
  | ok text =>
    cases hsaved : saved? keys values text with
    | none => exact .inl ⟨false, by simp [ofFile, hread, hsaved]⟩
    | some saved =>
      by_cases hsettings : saved.settings = settings
      · exact .inr ⟨text, saved, rfl, hsaved, hsettings, ofFile_of_saved? hread hsaved hsettings⟩
      · exact .inl ⟨true, by simp [ofFile, hread, hsaved, hsettings]⟩

namespace Standing

variable {rulesPath path : Path} {settings : String}

/-- What is read from a file stands before it is validated. -/
theorem of_saved? {other : String} (hread : files.read path = .ok other)
    (hsaved : saved? keys values other = some saved) (hsettings : saved.settings = settings)
    (hstored : ∀ f, files.node? (files.target path) = some (.file f) → ∀ saved,
      saved? keys values f.text = some saved → Kept good (stampOf files rulesPath text) saved) :
    Standing keys values good rulesPath text files
      ⟨path, [rulesPath], settings, saved.entries, saved.times, saved.hashes, false⟩ := by
  obtain ⟨f, hfind, rfl⟩ := FileStore.exists_find_of_read hread
  have hkept := hstored f (FileStore.find_eq_ok_iff.1 hfind).2 saved hsaved
  subst hsettings
  exact ⟨rfl, hkept, hstored, fun _ => ⟨_, hread, fun _ => ⟨saved, hsaved, rfl, fun _ => id⟩⟩⟩

/-- A cache that is opened over files that are kept stands. -/
theorem load (settings : String) (hread : files.read rulesPath = .ok text)
    (hstored : ∀ f, files.node? (files.target path) = some (.file f) → ∀ saved,
      saved? keys values f.text = some saved → Kept good (stampOf files rulesPath text) saved) :
    Standing keys values good rulesPath text files
        (.load keys values files path [rulesPath] settings) ∧
      (PersistentCache.load keys values files path [rulesPath] settings).settings = settings := by
  rcases ofFile_cases keys values files path [rulesPath] settings with
    ⟨unsaved, hblank⟩ | ⟨other, saved, hother, hsaved, hsettings, hfound⟩
  · obtain ⟨dropped, c, hresult, ⟨hpath, hsources, hsettings⟩, hunsaved, hkept⟩ :=
      revalidate_of_no_hashes good (c := ⟨path, [rulesPath], settings, [], .empty, .empty, unsaved⟩)
        hread rfl rfl
    rw [load_eq ((congrArg (·.revalidate files) hblank).trans hresult)]
    refine ⟨⟨hsources, hkept, hpath.symm ▸ hstored, fun hsaved => ?_⟩, hsettings⟩
    rw [hunsaved] at hsaved
    cases hsaved
  · obtain ⟨times, unsaved, hresult, hstands⟩ :=
      (of_saved? hother hsaved hsettings hstored).revalidate hread
    rw [load_eq ((congrArg (·.revalidate files) hfound).trans hresult)]
    exact ⟨hstands, rfl⟩

/-- A cache that is opened again has the keys that it was saved with. -/
theorem contains_load (h : Standing keys values good rulesPath text files c)
    (hread : files.read rulesPath = .ok text) (hsaved : c.IsSaved keys values files)
    (hdepth : (c.toJson keys values).depth ≤ Json.maxDepth) {key : κ}
    (hkey : c.contains key = true) :
    (PersistentCache.load keys values files c.path [rulesPath] c.settings).contains key = true := by
  obtain ⟨other, hother, hback⟩ := hsaved
  obtain ⟨saved, hsaved, hsettings, hkeys⟩ := hback hdepth
  obtain ⟨times, unsaved, hresult, -⟩ :=
    (of_saved? hother hsaved hsettings h.stored).revalidate hread
  have hfound : ofFile keys values files c.path [rulesPath] c.settings = _ :=
    ofFile_of_saved? hother hsaved hsettings
  rw [load_eq ((congrArg (·.revalidate files) hfound).trans hresult)]
  exact hkeys key hkey

end Standing

end PersistentCache

/-! ## Evolvers -/

/-- The lines that an engine traces for a query, wherever it follows the rule file, are of a kind. -/
structure Engine.Marks {σ : Type} (engine : Engine σ) (law : String → Law)
    (running : σ → Option String) (rulesPath : Path) (text : String)
    (good : String → Query → List TraceLine → Prop) : Prop where
  lines : ∀ {files r s changed t}, files.read rulesPath = .ok text →
    (running s = none ∨ running s = some text) → engine.evolve files r s = (.ok changed, t) →
    ∀ {syllables q word}, q.window = (r.start, r.stop) →
      q.naiveText (law text) syllables = .ok word → word ∈ r.traced →
        good (Evolver.settings syllables) q (changed.trace.filter fun line => line.word = word)

namespace Evolver

variable {σ : Type} {engine : Engine σ} {law : String → Law} {running : σ → Option String}
  {good : String → Query → List TraceLine → Prop} {rulesPath : Path} {text : String}
  {files : FileStore} {trace : Bool} {v w u : Evolver σ}

/-- Both caches of an evolver stand. -/
structure Stands (good : String → Query → List TraceLine → Prop) (rulesPath : Path) (text : String)
    (files : FileStore) (v : Evolver σ) : Prop where
  evolved : v.evolved.Standing Query.codec Evolved.codec (fun _ _ _ => True) rulesPath text files
  traces : v.traces.Standing Query.codec TraceLine.codec good rulesPath text files
  settings : v.traces.settings = settings v.syllables

/-- What a call works with when the rule file is unchanged: nothing was dropped, and the engine was
not reset. -/
structure Prepared (law : String → Law) (running : σ → Option String)
    (good : String → Query → List TraceLine → Prop) (rulesPath : Path) (text : String)
    (files : FileStore) (v w : Evolver σ) : Prop where
  stands : w.Stands good rulesPath text files
  evolved : w.evolved.entries = v.evolved.entries
  traces : w.traces.entries = v.traces.entries
  engine : w.engine = v.engine
  syllables : w.syllables = v.syllables
  sound : w.Sound (law text)
  tuned : w.Tuned running text

theorem exists_prepared (hengine : engine.WordWise law rulesPath running)
    (hread : files.read rulesPath = .ok text) (hv : v.Consistent law running {text} rulesPath)
    (hstands : v.Stands good rulesPath text files) :
    ∃ w, (refresh engine files).result v = (.ok (.parse text), w) ∧
      v.Prepared law running good rulesPath text files w := by
  obtain ⟨w, hrefresh, hw, hbelongs, -⟩ := exists_refresh hengine (Set.injOn_singleton _ _)
    (Set.mem_singleton text) hread hv
  obtain ⟨old, hold, hcontent, hstate⟩ := hv.content
  rw [Set.mem_singleton_iff] at hold
  subst hold
  have hsound := hv.sound hw (hbelongs (hv.timely_of_belongs hread hcontent))
  have hsum : files.checksum v.rulesPath = .ok (textDigest old) := by
    rw [hv.path, FileStore.checksum_eq hread]
  rcases hstate with ⟨hnone, -⟩ | ⟨hsome, -⟩
  · obtain ⟨times, unsaved, hevolved, hevolved'⟩ := hstands.evolved.revalidate hread
    obtain ⟨times', unsaved', htraces, htraces'⟩ := hstands.traces.revalidate hread
    obtain ⟨hrules, -⟩ := valid?_of_result_order
      ((result_refresh_first hsum hnone hevolved htraces).symm.trans hrefresh)
    refine ⟨w, hrefresh, ⟨?_, ?_, ?_⟩, ?_, ?_, ?_, hw.syllables, hsound, hw.tuned⟩ <;> rw [hrules]
    · exact hevolved'
    · exact htraces'
    · exact hstands.settings
  · obtain ⟨hrules, -⟩ := valid?_of_result_order
      ((result_refresh_unchanged hsum hsome).symm.trans hrefresh)
    refine ⟨w, hrefresh, ⟨?_, ?_, ?_⟩, ?_, ?_, ?_, hw.syllables, hsound, hw.tuned⟩ <;> rw [hrules]
    · exact hstands.evolved
    · exact hstands.traces
    · exact hstands.settings

/-- The lines that a call brings are of the kind. -/
theorem Dialogue.lines_good {order : RuleOrder} {forms : List Form} {p : Plan} {log : List Exchange}
    {outcome : Except Error Unit} (hengine : engine.WordWise law rulesPath running)
    (hmarks : engine.Marks law running rulesPath text good) (hread : files.read rulesPath = .ok text)
    (htuned : w.Tuned running text) (hp : Plan.ofForms order forms = .ok p)
    (h : Dialogue engine files true p.batches w u log outcome) (hu : u.Sound (law text)) :
    ∀ entry ∈ log.flatMap Exchange.lines, good (settings u.syllables) entry.1 entry.2 := by
  intro entry hentry
  obtain ⟨x, hx, hentry⟩ := List.mem_flatMap.1 hentry
  obtain ⟨changed, word, hreply, hasked, hlines⟩ := Exchange.mem_asked_of_mem_lines hentry
  -- the engine follows the rule file when it replies
  obtain ⟨s, t, hs, hevolve⟩ := h.replies.exists_evolve (hengine.counts hread) htuned
    (List.mem_map_of_mem (f := fun x => (x.request true, x.reply)) hx)
  rw [hreply] at hevolve
  have hquery : entry.1 ∈ w.pending true x.batch := by
    rw [← h.asked x hx]
    exact List.mem_map_of_mem hasked
  have hwindow : entry.1.window = x.batch.window := by
    have hbatch := (List.mem_filter.1 (h.inOrder.subset (List.mem_map_of_mem hx))).1
    exact Plan.window_of_ofForms hp _ hbatch _ (List.mem_filter.1 hquery).1
  rw [hlines]
  refine hmarks.lines hread hs hevolve hwindow (hu.naiveText_of_wordOf (h.texts x hx _ hasked)) ?_
  exact mem_distinct.2 (List.mem_map_of_mem hasked)

/-- The caches stand after a call, whatever came of it. -/
theorem Prepared.stands_of_dialogue {order : RuleOrder} {forms : List Form} {p : Plan}
    {log : List Exchange} {outcome : Except Error Unit}
    (hengine : engine.WordWise law rulesPath running)
    (hmarks : engine.Marks law running rulesPath text good) (hread : files.read rulesPath = .ok text)
    (hw : v.Prepared law running good rulesPath text files w) (hp : Plan.ofForms order forms = .ok p)
    (h : Dialogue engine files trace p.batches w u log outcome) (hu : u.Sound (law text)) :
    u.Stands good rulesPath text files := by
  have hsyllables : u.syllables = w.syllables := by rw [h.same]
  have hsettings : w.traces.settings = settings u.syllables := by
    rw [hw.stands.settings, hsyllables]
  have hresults : ∀ entry ∈ log.flatMap Exchange.results, True := fun _ _ => trivial
  have hevolved := hw.stands.evolved.insertAll hresults
  rw [← h.evolved] at hevolved
  have htraces := h.traces
  cases trace with
  | false =>
    rw [if_neg Bool.false_ne_true] at htraces
    exact ⟨hevolved, htraces ▸ hw.stands.traces, htraces ▸ hsettings⟩
  | true =>
    rw [if_pos rfl] at htraces
    have hlines := h.lines_good hengine hmarks hread hw.tuned hp hu
    refine ⟨hevolved, ?_, ?_⟩
    · rw [htraces]
      exact hw.stands.traces.insertAll (hsettings ▸ hlines)
    · rw [htraces, PersistentCache.settings_insertAll, hsettings]

/-! ### Files -/

/-- Nothing that is written away from the files of the caches makes a difference. -/
theorem Stands.of_puts {files' : FileStore} {l : Location} {other : String}
    (h : v.Stands good rulesPath text files) (hputs : files.Puts files' l other)
    (hevolved : files.target v.evolved.path ≠ l) (htraces : files.target v.traces.path ≠ l) :
    v.Stands good rulesPath text files' :=
  ⟨h.evolved.of_puts hputs hevolved, h.traces.of_puts hputs htraces, h.settings⟩

section

variable {left : FileStore} {outcome : Except Error Unit}

theorem Stands.save_evolved {c : PersistentCache Query Evolved}
    (h : v.Stands good rulesPath text files)
    (hapart : files.target v.evolved.path ≠ files.target v.traces.path)
    (hsave : v.evolved.save Query.codec Evolved.codec files = (outcome, left, c)) :
    Stands good rulesPath text left { v with evolved := c } ∧
      (outcome = .ok () → c.IsSaved Query.codec Evolved.codec left) := by
  have hstands := h.evolved.save Query.codec_faithful Evolved.codec_faithful
  have hputs := (v.evolved.puts_save Query.codec Evolved.codec files).1
  rw [hsave] at hstands hputs
  exact ⟨⟨hstands.1, h.traces.of_puts hputs hapart.symm, h.settings⟩, hstands.2⟩

theorem Stands.save_traces {c : PersistentCache Query (List TraceLine)}
    (h : v.Stands good rulesPath text files)
    (hapart : files.target v.evolved.path ≠ files.target v.traces.path)
    (hsave : v.traces.save Query.codec TraceLine.codec files = (outcome, left, c)) :
    Stands good rulesPath text left { v with traces := c } ∧
      (outcome = .ok () → c.IsSaved Query.codec TraceLine.codec left) := by
  have hstands := h.traces.save Query.codec_faithful TraceLine.codec_faithful
  obtain ⟨hputs, unsaved, hunsaved⟩ := v.traces.puts_save Query.codec TraceLine.codec files
  rw [hsave] at hstands hputs hunsaved
  refine ⟨⟨h.evolved.of_puts hputs hapart, hstands.1, ?_⟩, hstands.2⟩
  dsimp only at hunsaved
  rw [hunsaved]
  exact h.settings

end

/-- Flushing, saved or not, leaves caches that stand. -/
theorem Stands.flush (h : v.Stands good rulesPath text files)
    (hapart : files.target v.evolved.path ≠ files.target v.traces.path) :
    (v.flush files).2.2.Stands good rulesPath text (v.flush files).2.1 := by
  obtain ⟨hputs, unsaved, hunsaved⟩ := v.evolved.puts_save Query.codec Evolved.codec files
  rw [Evolver.flush]
  cases hsave : v.evolved.save Query.codec Evolved.codec files with
  | mk outcome rest =>
    obtain ⟨between, evolved⟩ := rest
    have hevolved := (h.save_evolved hapart hsave).1
    rw [hsave] at hputs hunsaved
    dsimp only at hputs hunsaved
    cases outcome with
    | error e => exact hevolved
    | ok =>
      have hapart' : between.target evolved.path ≠ between.target v.traces.path := by
        rw [hputs.target_eq, hputs.target_eq, hunsaved]
        exact hapart
      dsimp only
      cases hsave' : v.traces.save Query.codec TraceLine.codec between with
      | mk outcome rest =>
        obtain ⟨left, traces⟩ := rest
        exact (hevolved.save_traces hapart' hsave').1

/-- What closing saves. -/
structure Saves (files : FileStore) (v : Evolver σ) : Prop where
  evolved : (v.evolved.save Query.codec Evolved.codec files).1 = .ok ()
  traces : (v.traces.save Query.codec TraceLine.codec
    (v.evolved.close Query.codec Evolved.codec files)).1 = .ok ()
  evolvedDepth : (v.evolved.toJson Query.codec Evolved.codec).depth ≤ Json.maxDepth
  tracesDepth : (v.traces.toJson Query.codec TraceLine.codec).depth ≤ Json.maxDepth

/-- Closing, saved or not, leaves files of caches that stand; if both were saved, their files give them
back. -/
theorem Stands.close (h : v.Stands good rulesPath text files)
    (hapart : files.target v.evolved.path ≠ files.target v.traces.path) :
    (∃ unsaved unsaved', Stands good rulesPath text (v.close files) { v with
      evolved := { v.evolved with unsaved }
      traces := { v.traces with unsaved := unsaved' } }) ∧
    (v.Saves files → v.evolved.IsSaved Query.codec Evolved.codec (v.close files) ∧
      v.traces.IsSaved Query.codec TraceLine.codec (v.close files)) := by
  obtain ⟨hputs, unsaved, hunsaved⟩ := v.evolved.puts_save Query.codec Evolved.codec files
  rcases hsave : v.evolved.save Query.codec Evolved.codec files with ⟨outcome, between, evolved⟩
  have hevolved := h.save_evolved hapart hsave
  rw [hsave] at hputs hunsaved
  dsimp only at hputs hunsaved
  subst hunsaved
  obtain ⟨hputs', unsaved', hunsaved'⟩ := v.traces.puts_save Query.codec TraceLine.codec between
  rcases hsave' : v.traces.save Query.codec TraceLine.codec between with ⟨outcome', left, traces⟩
  have hapart' : between.target v.evolved.path ≠ between.target v.traces.path := by
    rwa [hputs.target_eq, hputs.target_eq]
  have htraces := hevolved.1.save_traces hapart' hsave'
  rw [hsave'] at hputs' hunsaved'
  dsimp only at hputs' hunsaved'
  subst hunsaved'
  have hclose : v.close files = left := by
    rw [Evolver.close, PersistentCache.close, PersistentCache.close, hsave, hsave']
  rw [hclose]
  refine ⟨⟨unsaved, unsaved', htraces.1⟩, fun hsaves => ?_⟩
  have hok : outcome = .ok () := by rw [← hsaves.evolved, hsave]
  have hok' : outcome' = .ok () := by
    rw [← hsaves.traces, PersistentCache.close, hsave, hsave']
  exact ⟨(hevolved.2 hok).of_puts hputs' hapart', htraces.2 hok'⟩

/-- An evolver that is opened over files of caches that stand has caches that stand. -/
theorem stands_opened {cacheDir : Path} (hread : files.read rulesPath = .ok text)
    (hevolved : ∀ f, files.node? (files.target (evolvedFile cacheDir)) = some (.file f) →
      ∀ saved, PersistentCache.saved? Query.codec Evolved.codec f.text = some saved →
        PersistentCache.Kept (fun _ _ _ => True) (PersistentCache.stampOf files rulesPath text) saved)
    (htraces : ∀ f, files.node? (files.target (tracesFile cacheDir)) = some (.file f) →
      ∀ saved, PersistentCache.saved? Query.codec TraceLine.codec f.text = some saved →
        PersistentCache.Kept good (PersistentCache.stampOf files rulesPath text) saved)
    (state : σ) (syllables : Bool) :
    (opened files rulesPath cacheDir state syllables).Stands good rulesPath text files := by
  have htraces' := PersistentCache.Standing.load (settings syllables) hread htraces
  exact ⟨(PersistentCache.Standing.load (settings syllables) hread hevolved).1, htraces'.1, htraces'.2⟩

end Evolver

/-! ## Sites -/

namespace Site

variable {σ : Type} {engine : Engine σ} {law : String → Law} {running : σ → Option String}
  {good : String → Query → List TraceLine → Prop} {rulesPath cacheDir : Path} {text : String}
  {s t : Site σ}

/-- The caches of a site stand, and belong to the one text of its rule file. -/
structure Stands (law : String → Law) (running : σ → Option String)
    (good : String → Query → List TraceLine → Prop) (rulesPath cacheDir : Path) (text : String)
    (s : Site σ) : Prop where
  upheld : s.Upheld law running {text} rulesPath cacheDir
  evolver : s.evolver.Stands good rulesPath text s.files

namespace Stands

theorem read_eq (hs : s.Stands law running good rulesPath cacheDir text) :
    s.files.read rulesPath = .ok text := by
  obtain ⟨found, hfound, hread⟩ := hs.upheld.files.readable
  rwa [Set.mem_singleton_iff.1 hfound] at hread

theorem timely (hs : s.Stands law running good rulesPath cacheDir text) :
    s.evolver.Timely s.files :=
  hs.upheld.timely Set.subsingleton_singleton

end Stands

theorem Upheld.sound (hs : s.Upheld law running {text} rulesPath cacheDir) :
    s.evolver.Sound (law text) := by
  obtain ⟨found, hfound, hbelongs, -⟩ := hs.evolver.consistent.content
  rw [Set.mem_singleton_iff.1 hfound] at hbelongs
  exact hbelongs.entries _ hs.evolver.consistent.settings

/-- A call is a step, with or without its results. -/
theorem step_call (s : Site σ) (htimes : s.evolver.Timely s.files) (trace : Bool)
    (inputs : List Evolvable) : Step engine running {text} rulesPath cacheDir s
      ⟨s.files, ((Evolver.call engine s.files trace inputs).result s.evolver).2⟩ := by
  have hcall := Evolver.snd_result_call engine s.files inputs s.evolver
  cases trace with
  | false =>
    rw [hcall.1]
    exact .evolve s inputs htimes
  | true =>
    rw [hcall.2]
    exact .trace s inputs htimes

theorem Upheld.step_singleton (hengine : engine.WordWise law rulesPath running)
    (hs : s.Upheld law running {text} rulesPath cacheDir)
    (hst : Step engine running {text} rulesPath cacheDir s t) :
    t.Upheld law running {text} rulesPath cacheDir :=
  hs.step hengine (Set.injOn_singleton _ _) hst

/-- A call at a site whose caches stand is planned with what the caches hold. It ends there, or it is a
dialogue. -/
theorem Stands.exists_dialogue (hengine : engine.WordWise law rulesPath running)
    (hs : s.Stands law running good rulesPath cacheDir text) (trace : Bool)
    (inputs : List Evolvable) : ∃ w,
    s.evolver.Prepared law running good rulesPath text s.files w ∧
      (Evolver.plan engine s.files inputs).result s.evolver =
        (Plan.ofForms (.parse text) (inputs.map (·.arranged (.parse text))), w) ∧
      ((∃ e, Plan.ofForms (.parse text) (inputs.map (·.arranged (.parse text))) = .error e ∧
        (Evolver.call engine s.files trace inputs).result s.evolver = (.error e, w)) ∨
      ∃ p outcome u log, Plan.ofForms (.parse text) (inputs.map (·.arranged (.parse text))) = .ok p ∧
        (Evolver.call engine s.files trace inputs).result s.evolver = (outcome, u) ∧
        Evolver.Dialogue engine s.files trace p.batches w u log outcome) := by
  obtain ⟨w, hrefresh, hw⟩ := Evolver.exists_prepared hengine hs.read_eq hs.upheld.evolver.consistent
    hs.evolver
  have hplan : (Evolver.plan engine s.files inputs).result s.evolver =
      (Plan.ofForms (.parse text) (inputs.map (·.arranged (.parse text))), w) := by
    rw [Evolver.plan, Action.result_bind_ok hrefresh, Action.result_ofExcept]
  refine ⟨w, hw, hplan, ?_⟩
  cases hp : Plan.ofForms (.parse text) (inputs.map (·.arranged (.parse text))) with
  | error e =>
    rw [hp] at hplan
    exact .inl ⟨e, rfl, Evolver.result_call_of_unplanned hplan⟩
  | ok p =>
    rw [hp] at hplan
    obtain ⟨outcome, u, log, hcall, hdialogue⟩ :=
      Evolver.exists_dialogue trace (hengine.counts hs.read_eq) hw.tuned hplan
    exact .inr ⟨p, outcome, u, log, rfl, hcall, hdialogue⟩

theorem Stands.call (hengine : engine.WordWise law rulesPath running)
    (hmarks : engine.Marks law running rulesPath text good)
    (hs : s.Stands law running good rulesPath cacheDir text) (trace : Bool)
    (inputs : List Evolvable) :
    Stands law running good rulesPath cacheDir text
      ⟨s.files, ((Evolver.call engine s.files trace inputs).result s.evolver).2⟩ := by
  have hupheld := hs.upheld.step_singleton hengine (step_call s hs.timely trace inputs)
  refine ⟨hupheld, ?_⟩
  obtain ⟨w, hw, -, ⟨e, -, hcall⟩ | ⟨p, outcome, u, log, hp, hcall, hdialogue⟩⟩ :=
    hs.exists_dialogue hengine trace inputs
  · rw [hcall]
    exact hw.stands
  · rw [hcall] at hupheld ⊢
    exact hw.stands_of_dialogue hengine hmarks hs.read_eq hp hdialogue hupheld.sound

/-- The files of the caches lie apart from each other and from the rule file. -/
theorem Upheld.apart (hs : s.Upheld law running {text} rulesPath cacheDir) :
    s.files.target s.evolver.evolved.path ≠ s.files.target s.evolver.traces.path ∧
      s.files.target s.evolver.evolved.path ≠ s.files.target rulesPath ∧
      s.files.target s.evolver.traces.path ≠ s.files.target rulesPath := by
  rw [hs.evolver.evolvedPath, hs.evolver.tracesPath]
  exact ⟨Evolver.target_evolvedFile_ne _ _, hs.files.apart.1.symm, hs.files.apart.2.symm⟩

theorem Stands.step (hengine : engine.WordWise law rulesPath running)
    (hmarks : engine.Marks law running rulesPath text good)
    (hs : s.Stands law running good rulesPath cacheDir text)
    (hst : Step engine running {text} rulesPath cacheDir s t) :
    t.Stands law running good rulesPath cacheDir text := by
  have hupheld := hs.upheld.step_singleton hengine hst
  obtain ⟨hapart, hevolved, htraces⟩ := hs.upheld.apart
  cases hst with
  | evolve inputs htimes =>
    have hcall := hs.call hengine hmarks false inputs
    rwa [(Evolver.snd_result_call engine s.files inputs s.evolver).1] at hcall
  | trace inputs htimes =>
    have hcall := hs.call hengine hmarks true inputs
    rwa [(Evolver.snd_result_call engine s.files inputs s.evolver).2] at hcall
  | flush => exact ⟨hupheld, hs.evolver.flush hapart⟩
  | reopen state syllables hidle =>
    obtain ⟨⟨unsaved, unsaved', hclosed⟩, -⟩ := hs.evolver.close hapart
    have hread : (s.evolver.close s.files).read rulesPath = .ok text := by
      obtain ⟨found, hfound, hread⟩ := hupheld.files.readable
      rwa [Set.mem_singleton_iff.1 hfound] at hread
    refine ⟨hupheld, Evolver.stands_opened hread ?_ ?_ state syllables⟩
    · rw [← hs.upheld.evolver.evolvedPath]
      exact hclosed.evolved.stored
    · rw [← hs.upheld.evolver.tracesPath]
      exact hclosed.traces.stored
  | edit found time files hfound hwrite =>
    exact ⟨hupheld, hs.evolver.of_puts (FileStore.puts_write_at hwrite).1 hevolved htraces⟩

theorem stands_of_reached (hengine : engine.WordWise law rulesPath running)
    (hmarks : engine.Marks law running rulesPath text good)
    (hs : s.Reached engine running {text} rulesPath cacheDir) :
    s.Stands law running good rulesPath cacheDir text := by
  induction hs with
  | opened files found hfound hread hevolved htraces state syllables hidle =>
    rw [Set.mem_singleton_iff.1 hfound] at hread
    refine ⟨upheld_opened (Set.injOn_singleton _ _) (Set.mem_singleton text) hread hevolved htraces
      hidle, ?_⟩
    exact Evolver.stands_opened hread (fun f hf => absurd hf (hevolved f))
      (fun f hf => absurd hf (htraces f)) state syllables
  | step _ hst ih => exact ih.step hengine hmarks hst

end Site

end Etymon
