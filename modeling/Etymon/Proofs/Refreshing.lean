import Etymon.Proofs.CacheFile
import Etymon.Proofs.Files
import Etymon.Proofs.Validation
import Etymon.Proofs.WordWise
import Mathlib.Data.Set.Function

/-!
# Caches and the text they belong to

The entries of a cache belong to one text of the rule file, and the stamps of the cache tell which.
A call first brings the cache and the engine to the present text.

## Main definitions

* `textDigest`: the checksum of a readable file.
* `PersistentCache.Belongs`: what a cache holds was evolved by the law of one text.
* `Evolver.Consistent`: cache, engine and rule order belong to texts of the rule file.

## Main results

* `PersistentCache.belongs_of_saved?`: what is read from a cache's file belongs to the cache's text.
* `PersistentCache.belongs_revalidate`: a validated cache belongs to the present text.
* `Evolver.exists_refresh`: refreshing succeeds and leaves a sound cache and a tuned engine.
-/

namespace Etymon

/-- The checksum of a file that holds a text. -/
def textDigest (text : String) : String :=
  Digest.sha256 (Digest.bytes text)

theorem FileStore.checksum_eq {files : FileStore} {p : Path} {text : String}
    (h : files.read p = .ok text) : files.checksum p = .ok (textDigest text) :=
  checksum_of_read h

/-- A checksum is that of the text that a file has, or that of a missing file. -/
theorem FileStore.checksum_eq_ok_iff {files : FileStore} {p : Path} {hash : String} :
    files.checksum p = .ok hash ↔
      (∃ text, files.read p = .ok text ∧ hash = textDigest text) ∨
        files.read p = .error .notFound ∧ hash = missingChecksum := by
  rw [checksum]
  split
  · next text hread => simp [hread, textDigest, eq_comm]
  · next hread => simp [hread, eq_comm]
  · next fault hfault hread =>
    constructor
    · intro h
      cases h
    · rintro (⟨text, hok, -⟩ | ⟨hmissing, -⟩)
      · rw [hread] at hok
        cases hok
      · rw [hread, Except.error.injEq] at hmissing
        exact absurd hmissing hfault

theorem Evolver.settings_injective {a b : Bool} (h : settings a = settings b) : a = b := by
  have hname : toString a = toString b := by simpa [settings] using h
  cases a <;> cases b <;> first | rfl | exact absurd hname (by decide)

/-! ## Caches -/

namespace PersistentCache

/-- What a cache holds, as its file does. -/
def contents {κ ν : Type} (c : PersistentCache κ ν) : Saved κ ν :=
  ⟨c.settings, c.entries, c.times, c.hashes⟩

/-- The entries were evolved by the law of a text, and the stamps are those of the text. -/
structure Belongs (law : String → Law) (text : String) (saved : Saved Query Evolved) : Prop where
  entries : ∀ syllables, saved.settings = Evolver.settings syllables →
    SoundEntries (law text) syllables saved.entries
  hashes : ∀ item ∈ saved.hashes.items, item.2 = textDigest text
  times : ∀ item ∈ saved.times.items, item.2 < 18446744073709551616

variable {law : String → Law} {text : String} {files : FileStore}
  {c c' : PersistentCache Query Evolved} {p : Path}

theorem mem_foldl_setEntry {κ ν : Type} [DecidableEq κ] {known : List (κ × ν)}
    {entries : List (κ × ν)} {entry : κ × ν}
    (h : entry ∈ entries.foldl (fun known e => setEntry e.1 e.2 known) known) :
    entry ∈ known ∨ entry ∈ entries := by
  induction entries generalizing known with
  | nil => exact .inl h
  | cons first rest ih =>
    rcases ih h with h | h
    · rcases mem_setEntry h with rfl | h
      · exact .inr (by simp)
      · exact .inl h
    · exact .inr (List.mem_cons_of_mem _ h)

/-- The file that a cache is saved to belongs to the cache's text. -/
theorem belongs_of_saved? (hc : Belongs law text c.contents) {saved : Saved Query Evolved}
    (h : saved? Query.codec Evolved.codec (c.toJson Query.codec Evolved.codec).write = some saved) :
    Belongs law text saved := by
  rw [saved?_write Query.codec_faithful Evolved.codec_faithful hc.times] at h
  split at h
  · rw [Option.some.injEq] at h
    subst h
    refine ⟨fun syllables hsettings entry hentry => ?_, hc.hashes, hc.times⟩
    rcases mem_foldl_setEntry hentry with hentry | hentry
    · cases hentry
    · exact hc.entries syllables hsettings entry hentry
  · cases h

/-- A single source that can be read has a checksum. -/
theorem exists_checksum {κ ν : Type} {c : PersistentCache κ ν} (hread : files.read p = .ok text)
    (hsources : c.sources = [p]) : ∀ q ∈ c.sources, ∃ hash, files.checksum q = .ok hash := by
  intro q hq
  rw [hsources, List.mem_singleton] at hq
  exact ⟨_, by rw [hq, FileStore.checksum_eq hread]⟩

theorem belongs_of_stamped (hread : files.read p = .ok text) (hentries : c.entries = [])
    (hstamped : c.Stamped files [p]) : Belongs law text c.contents := by
  refine ⟨fun syllables _ entry hentry => ?_, fun item hitem => ?_, fun item hitem => ?_⟩
  · rw [contents, hentries] at hentry
    cases hentry
  · obtain ⟨q, hq, -, hsum⟩ := hstamped.2 item hitem
    rw [List.mem_singleton] at hq
    rw [hq, FileStore.checksum_eq hread, Except.ok.injEq] at hsum
    exact hsum.symm
  · obtain ⟨q, -, rfl⟩ := hstamped.1 item hitem
    exact files.modified_lt q

/-- Stamps of the present text tell it from others. -/
theorem timesTell_of_belongs (hread : files.read p = .ok text) (hsources : c.sources = [p])
    (hc : Belongs law text c.contents) : c.TimesTell files := by
  intro hsame q hq _
  rw [sameSources, Bool.and_eq_true, List.all_eq_true] at hsame
  have hcontains := hsame.2 q hq
  rw [SortedMap.contains, Option.isSome_iff_exists] at hcontains
  obtain ⟨hash, hhash⟩ := hcontains
  rw [hsources, List.mem_singleton] at hq
  have heq : hash = textDigest text := hc.hashes _ (mem_of_lookup_eq_some hhash)
  exact ⟨hash, by rw [hq, FileStore.checksum_eq hread, heq], hhash⟩

/-- A validated cache belongs to the present text if its times tell texts apart, and is the same as
before otherwise. -/
theorem belongs_revalidate {texts : Set String} (hdigest : Set.InjOn textDigest texts)
    {old : String} (hold : old ∈ texts) (htext : text ∈ texts) (hread : files.read p = .ok text)
    (hsources : c.sources = [p]) (hc : Belongs law old c.contents) :
    ∃ dropped c', c.revalidate files = (.ok dropped, c') ∧ c.Alike c' ∧
      (c.TimesTell files → Belongs law text c'.contents) ∧ (¬ c.TimesTell files → c' = c) := by
  by_cases htimes : c.TimesTell files
  swap
  · exact ⟨false, c, revalidate_of_not_timesTell hsources htimes, ⟨rfl, rfl, rfl⟩,
      fun h => absurd h htimes, fun _ => rfl⟩
  obtain ⟨dropped, c', hresult⟩ := exists_revalidate_eq_ok (exists_checksum hread hsources)
  obtain ⟨halike, hkept | ⟨hentries, hstamped⟩⟩ := revalidate_eq_ok hresult
  · obtain ⟨hentries, hhashes, hsame, hvouches, htimes'⟩ := hkept
    refine ⟨dropped, c', hresult, halike, fun _ => ?_, fun h => absurd htimes h⟩
    have hp : p ∈ c.sources := by simp [hsources]
    -- however the source passed, its checksum is the recorded one
    obtain ⟨hash, hsum, hhash⟩ : ∃ hash, files.checksum p = .ok hash ∧
        c.hashes.get? (sourceKey files p) = some hash := by
      rcases hvouches p hp with htime | hhash
      · exact htimes hsame p hp htime
      · exact hhash
    have heq : old = text := by
      refine hdigest hold htext ?_
      rw [FileStore.checksum_eq hread, Except.ok.injEq] at hsum
      rw [← hc.hashes _ (mem_of_lookup_eq_some hhash), hsum]
    subst heq
    refine ⟨fun syllables hsettings => ?_, fun item hitem => ?_, fun item hitem => ?_⟩
    · rw [contents, hentries]
      exact hc.entries syllables (by rw [← hsettings]; exact halike.2.2.symm)
    · rw [contents, hhashes] at hitem
      exact hc.hashes item hitem
    · rcases htimes' item hitem with hitem | ⟨q, hq⟩
      · exact hc.times item hitem
      · rw [hq]
        exact files.modified_lt q
  · refine ⟨dropped, c', hresult, halike, fun _ => ?_, fun h => absurd htimes h⟩
    exact belongs_of_stamped hread hentries (by rwa [hsources] at hstamped)

theorem belongs_clear (law : String → Law) (hread : files.read p = .ok text)
    (hsources : c.sources = [p]) :
    ∃ c', c.clear files = (.ok (), c') ∧ c.Alike c' ∧ Belongs law text c'.contents := by
  obtain ⟨c', hresult⟩ := exists_clear_eq_ok (exists_checksum hread hsources)
  obtain ⟨halike, hentries, hstamped⟩ := clear_eq_ok hresult
  exact ⟨c', hresult, halike, belongs_of_stamped hread hentries (by rwa [hsources] at hstamped)⟩

end PersistentCache

/-! ## Kept values -/

namespace PathCache

variable {σ α : Type} {files : FileStore} {paths : List Path} {compute : Action σ α}
  {cache : PathCache α} {s t : σ} {value : α}

theorem result_get_of_valid (h : cache.valid? files (stampsOf paths) = .ok (some value)) :
    (cache.get (fun _ => files) paths compute).result s = (.ok (value, cache), s) := by
  rw [get, getWith, Action.result_bind, Action.result_get]
  dsimp only
  rw [Action.result_bind, Action.result_ofExcept, h]
  rfl

theorem result_get_of_invalid (h : cache.valid? files (stampsOf paths) = .ok none)
    (hcompute : compute.result s = (.ok value, t)) {stamps : List (Path × String)}
    (hstamps : stamp files paths = .ok stamps) :
    (cache.get (fun _ => files) paths compute).result s =
      (.ok (value, some ⟨stamps, value⟩), t) := by
  rw [get, getWith, Action.result_bind, Action.result_get]
  dsimp only
  rw [Action.result_bind, Action.result_ofExcept, h]
  dsimp only
  rw [Action.result_bind, Action.result_bind, hcompute]
  dsimp only
  rw [Action.result_pure]
  dsimp only
  rw [Action.result_bind, Action.result_get]
  dsimp only
  rw [Action.result_bind, Action.result_ofExcept, hstamps]
  rfl

end PathCache

/-! ## Evolvers -/

namespace Evolver

variable {σ : Type} {engine : Engine σ} {files : FileStore} {law : String → Law}
  {running : σ → Option String} {texts : Set String} {text : String} {v w : Evolver σ}

/-- The rule order that is kept is that of a text of the rule file. -/
def KeepsOrderOf (texts : Set String) (path : Path) (rules : PathCache RuleOrder) : Prop :=
  ∀ memo, rules = some memo → ∃ old ∈ texts,
    memo = ⟨[(path, textDigest old)], RuleOrder.parse old⟩

theorem keepsOrderOf_some {path : Path} (htext : text ∈ texts) :
    KeepsOrderOf texts path (some ⟨[(path, textDigest text)], RuleOrder.parse text⟩) := by
  intro memo hmemo
  rw [Option.some.injEq] at hmemo
  exact ⟨text, htext, hmemo.symm⟩

/-- A kept order that is still valid is that of the present text. -/
theorem valid?_of_keepsOrderOf (hdigest : Set.InjOn textDigest texts) (htext : text ∈ texts)
    {path : Path} (hread : files.read path = .ok text) {rules : PathCache RuleOrder}
    (hrules : KeepsOrderOf texts path rules) :
    rules.valid? files (PathCache.stampsOf [path]) = .ok none ∨
      rules.valid? files (PathCache.stampsOf [path]) = .ok (some (RuleOrder.parse text)) := by
  cases rules with
  | none => exact .inl rfl
  | some memo =>
    obtain ⟨old, hold, rfl⟩ := hrules memo rfl
    have happlies : PathCache.stampsOf [path] [(path, textDigest old)] = true := by
      simp [PathCache.stampsOf, Path.same]
    rw [PathCache.valid?, if_pos happlies]
    simp only [PathCache.unchanged, FileStore.checksum_eq hread, bind, Except.bind]
    by_cases hsame : textDigest text = textDigest old
    · have heq : text = old := hdigest htext hold hsame
      exact .inr (by simp [heq, pure, Except.pure])
    · exact .inl (by simp [hsame, pure, Except.pure])

theorem exists_order (hdigest : Set.InjOn textDigest texts) (htext : text ∈ texts)
    (hread : files.read v.rulesPath = .ok text) (hrules : KeepsOrderOf texts v.rulesPath v.rules) :
    ∃ rules, (order files).result v = (.ok (RuleOrder.parse text), { v with rules }) ∧
      KeepsOrderOf texts v.rulesPath rules := by
  have hload : (Action.ofExcept (RuleOrder.load files v.rulesPath)).result v =
      (.ok (RuleOrder.parse text), v) := by
    rw [Action.result_ofExcept, RuleOrder.load, hread]
    rfl
  have hstamp : PathCache.stamp files [v.rulesPath] = .ok [(v.rulesPath, textDigest text)] := by
    simp [PathCache.stamp, FileStore.checksum_eq hread, bind, Except.bind, pure, Except.pure]
  obtain ⟨rules, hget, hrules'⟩ : ∃ rules, (v.rules.get (fun _ => files) [v.rulesPath]
      (Action.ofExcept (RuleOrder.load files v.rulesPath))).result v =
        (.ok (RuleOrder.parse text, rules), v) ∧ KeepsOrderOf texts v.rulesPath rules := by
    rcases valid?_of_keepsOrderOf hdigest htext hread hrules with hvalid | hvalid
    · exact ⟨_, PathCache.result_get_of_invalid hvalid hload hstamp, keepsOrderOf_some htext⟩
    · exact ⟨_, PathCache.result_get_of_valid hvalid, hrules⟩
  refine ⟨rules, ?_, hrules'⟩
  rw [order, Action.result_bind, Action.result_get]
  dsimp only
  rw [Action.result_bind, hget]
  rfl

/-! ### Consistent evolvers -/

/-- Cache and engine belong to one text of the rule file. Before the first call the engine does not
run; afterwards the checksum of the text is known. -/
structure Consistent (law : String → Law) (running : σ → Option String) (texts : Set String)
    (rulesPath : Path) (v : Evolver σ) : Prop where
  path : v.rulesPath = rulesPath
  order : KeepsOrderOf texts rulesPath v.rules
  settings : v.evolved.settings = settings v.syllables
  evolvedSources : v.evolved.sources = [rulesPath]
  tracesSources : v.traces.sources = [rulesPath]
  content : ∃ text ∈ texts, PersistentCache.Belongs law text v.evolved.contents ∧
    (v.rulesHash = none ∧ running v.engine = none ∨
      v.rulesHash = some (textDigest text) ∧ v.Tuned running text)

/-- Before its first call an evolver validates its cache; its times have to tell texts apart then. -/
def Timely (files : FileStore) (v : Evolver σ) : Prop :=
  v.rulesHash = none → v.evolved.TimesTell files

theorem Consistent.timely_of_belongs {rulesPath : Path}
    (hv : v.Consistent law running texts rulesPath) (hread : files.read rulesPath = .ok text)
    (hc : PersistentCache.Belongs law text v.evolved.contents) : v.Timely files :=
  fun _ => PersistentCache.timesTell_of_belongs hread hv.evolvedSources hc

/-- An evolver at work on a rule file with known texts, whatever its caches hold. Before the first call
the engine does not run; afterwards the checksum of a text is known. -/
structure Ready (running : σ → Option String) (texts : Set String) (rulesPath : Path)
    (v : Evolver σ) : Prop where
  path : v.rulesPath = rulesPath
  order : KeepsOrderOf texts rulesPath v.rules
  evolvedSources : v.evolved.sources = [rulesPath]
  tracesSources : v.traces.sources = [rulesPath]
  state : v.rulesHash = none ∧ running v.engine = none ∨
    ∃ text ∈ texts, v.rulesHash = some (textDigest text) ∧ v.Tuned running text

/-- What a call works with: the evolver has come to the given text, and is the same otherwise. -/
structure Refreshed (running : σ → Option String) (texts : Set String) (text : String)
    (v w : Evolver σ) : Prop where
  path : w.rulesPath = v.rulesPath
  hash : w.rulesHash = some (textDigest text)
  order : KeepsOrderOf texts v.rulesPath w.rules
  syllables : w.syllables = v.syllables
  evolved : v.evolved.Alike w.evolved
  traces : v.traces.Alike w.traces
  tuned : w.Tuned running text

/-- The last step of refreshing reads the order of rules. -/
theorem exists_order_of_refreshed {u : Evolver σ} (hdigest : Set.InjOn textDigest texts)
    (htext : text ∈ texts) (hread : files.read v.rulesPath = .ok text)
    (hu : Refreshed running texts text v u) :
    ∃ w, (order files).result u = (.ok (RuleOrder.parse text), w) ∧
      Refreshed running texts text v w ∧ w.evolved = u.evolved := by
  obtain ⟨hpath, hhash, horder, hsyllables, hevolved, htraces, htuned⟩ := hu
  obtain ⟨rules, hresult, hrules⟩ := exists_order hdigest htext (by rw [← hread, hpath])
    (by rw [hpath]; exact horder)
  rw [hpath] at hrules
  exact ⟨_, hresult, ⟨hpath, hhash, hrules, hsyllables, hevolved, htraces, htuned⟩, rfl⟩

/-! ### Refreshing -/

section

variable {hash : String} {c : PersistentCache Query Evolved}
  {t : PersistentCache Query (List TraceLine)}

theorem result_refresh_first (hsum : files.checksum v.rulesPath = .ok hash)
    (hnone : v.rulesHash = none) {dropped dropped' : Bool}
    (hevolved : v.evolved.revalidate files = (.ok dropped, c))
    (htraces : v.traces.revalidate files = (.ok dropped', t)) :
    (refresh engine files).result v =
      (order files).result { v with evolved := c, traces := t, rulesHash := some hash } := by
  rw [refresh, Action.result_bind, Action.result_get]
  dsimp only
  rw [Action.result_bind, Action.result_ofExcept, hsum]
  dsimp only
  rw [hnone]
  dsimp only
  rw [Action.result_bind, onEvolved, Action.result_part, Action.result_ofFunction, hevolved]
  dsimp only
  rw [Action.result_bind, onTraces, Action.result_part, Action.result_ofFunction, htraces]
  dsimp only
  rw [Action.result_bind, Action.result_modify]

theorem result_refresh_unchanged (hsum : files.checksum v.rulesPath = .ok hash)
    (hsome : v.rulesHash = some hash) :
    (refresh engine files).result v = (order files).result v := by
  rw [refresh, Action.result_bind, Action.result_get]
  dsimp only
  rw [Action.result_bind, Action.result_ofExcept, hsum]
  dsimp only
  rw [hsome]
  dsimp only
  rw [if_neg (by simp), Action.result_bind, Action.result_modify]
  dsimp only
  rw [← hsome]

theorem result_refresh_changed {previous : String} (hsum : files.checksum v.rulesPath = .ok hash)
    (hsome : v.rulesHash = some previous) (hne : previous ≠ hash)
    (hevolved : v.evolved.clear files = (.ok (), c))
    (htraces : v.traces.clear files = (.ok (), t)) :
    (refresh engine files).result v = (order files).result { v with
      engine := engine.reset v.engine
      evolved := c
      traces := t
      rulesHash := some hash } := by
  rw [refresh, Action.result_bind, Action.result_get]
  dsimp only
  rw [Action.result_bind, Action.result_ofExcept, hsum]
  dsimp only
  rw [hsome]
  dsimp only
  rw [if_pos hne, Action.result_bind, Action.result_modify]
  dsimp only
  rw [Action.result_bind, onEvolved, Action.result_part, Action.result_ofFunction, hevolved]
  dsimp only
  rw [Action.result_bind, onTraces, Action.result_part, Action.result_ofFunction, htraces]
  dsimp only
  rw [Action.result_bind, Action.result_modify]

end

/-- Refreshing brings an evolver to the present text, whatever its caches hold. They are validated at
the first call, and cleared when the text has changed. -/
theorem Ready.exists_refresh {rulesPath : Path} (hreset : ∀ s, running (engine.reset s) = none)
    (hdigest : Set.InjOn textDigest texts) (htext : text ∈ texts)
    (hread : files.read rulesPath = .ok text) (hv : v.Ready running texts rulesPath) :
    ∃ w, (refresh engine files).result v = (.ok (RuleOrder.parse text), w) ∧
      Refreshed running texts text v w ∧
      (v.rulesHash = none → ∃ dropped, v.evolved.revalidate files = (.ok dropped, w.evolved)) ∧
      (v.rulesHash = some (textDigest text) → w.evolved = v.evolved) ∧
      (∀ hash, v.rulesHash = some hash → hash ≠ textDigest text →
        v.evolved.clear files = (.ok (), w.evolved)) := by
  obtain ⟨rfl, horder, hevolved, htraces, hstate⟩ := hv
  have hsum := FileStore.checksum_eq hread
  have hevolvedSums := PersistentCache.exists_checksum hread hevolved
  have htracesSums := PersistentCache.exists_checksum hread htraces
  rcases hstate with ⟨hnone, hidle⟩ | ⟨old, hold, hsome, htuned⟩
  · -- the first call validates
    obtain ⟨dropped, c, hresult⟩ := PersistentCache.exists_revalidate_eq_ok hevolvedSums
    obtain ⟨dropped', t, hresult'⟩ := PersistentCache.exists_revalidate_eq_ok htracesSums
    have hvalidated : Refreshed running texts text v
        { v with evolved := c, traces := t, rulesHash := some (textDigest text) } :=
      ⟨rfl, rfl, horder, rfl, (PersistentCache.revalidate_eq_ok hresult).1,
        (PersistentCache.revalidate_eq_ok hresult').1, .inl hidle⟩
    obtain ⟨w, hw, hrefreshed, hkept⟩ := exists_order_of_refreshed hdigest htext hread hvalidated
    refine ⟨w, (result_refresh_first hsum hnone hresult hresult').trans hw, hrefreshed,
      fun _ => ⟨dropped, hkept ▸ hresult⟩, fun h => ?_, fun hash h => ?_⟩
    · rw [hnone] at h
      cases h
    · rw [hnone] at h
      cases h
  · by_cases hsame : textDigest old = textDigest text
    · -- nothing has changed
      have heq : old = text := hdigest hold htext hsame
      subst heq
      have hsettled : Refreshed running texts old v v :=
        ⟨rfl, hsome, horder, rfl, ⟨rfl, rfl, rfl⟩, ⟨rfl, rfl, rfl⟩, htuned⟩
      obtain ⟨w, hw, hrefreshed, hkept⟩ := exists_order_of_refreshed hdigest htext hread hsettled
      refine ⟨w, (result_refresh_unchanged hsum hsome).trans hw, hrefreshed, fun h => ?_,
        fun _ => hkept, fun hash h hne => ?_⟩
      · rw [hsome] at h
        cases h
      · rw [hsome, Option.some.injEq] at h
        exact absurd h.symm hne
    · -- the engine is reset, and the caches are cleared
      obtain ⟨c, hresult⟩ := PersistentCache.exists_clear_eq_ok hevolvedSums
      obtain ⟨t, hresult'⟩ := PersistentCache.exists_clear_eq_ok htracesSums
      have hcleared : Refreshed running texts text v { v with
          engine := engine.reset v.engine
          evolved := c
          traces := t
          rulesHash := some (textDigest text) } :=
        ⟨rfl, rfl, horder, rfl, (PersistentCache.clear_eq_ok hresult).1,
          (PersistentCache.clear_eq_ok hresult').1, .inl (hreset _)⟩
      obtain ⟨w, hw, hrefreshed, hkept⟩ := exists_order_of_refreshed hdigest htext hread hcleared
      refine ⟨w, (result_refresh_changed hsum hsome hsame hresult hresult').trans hw, hrefreshed,
        fun h => ?_, fun h => ?_, fun _ _ _ => hkept ▸ hresult⟩
      · rw [hsome] at h
        cases h
      · rw [hsome, Option.some.injEq] at h
        exact absurd h hsame

theorem Consistent.ready {rulesPath : Path} (hv : v.Consistent law running texts rulesPath) :
    v.Ready running texts rulesPath := by
  obtain ⟨hpath, horder, -, hevolved, htraces, text, htext, -, hstate⟩ := hv
  exact ⟨hpath, horder, hevolved, htraces, hstate.imp_right fun ⟨hhash, htuned⟩ =>
    ⟨text, htext, hhash, htuned⟩⟩

/-- Refreshing brings a consistent evolver to the present text. Its cache belongs to the text then, or
is the same as before if a validation could not tell texts apart. -/
theorem exists_refresh {rulesPath : Path} (hengine : engine.WordWise law rulesPath running)
    (hdigest : Set.InjOn textDigest texts) (htext : text ∈ texts)
    (hread : files.read rulesPath = .ok text)
    (hv : v.Consistent law running texts rulesPath) :
    ∃ w, (refresh engine files).result v = (.ok (RuleOrder.parse text), w) ∧
      Refreshed running texts text v w ∧
      (v.Timely files → PersistentCache.Belongs law text w.evolved.contents) ∧
      (¬ v.Timely files → w.evolved = v.evolved) := by
  obtain ⟨w, hresult, hrefreshed, hfirst, hunchanged, hchanged⟩ :=
    hv.ready.exists_refresh hengine.reset hdigest htext hread
  refine ⟨w, hresult, hrefreshed, ?_⟩
  obtain ⟨rfl, -, -, hevolved, -, old, hold, hbelongs, hstate⟩ := hv
  rcases hstate with ⟨hnone, -⟩ | ⟨hsome, -⟩
  · obtain ⟨dropped, hvalidated⟩ := hfirst hnone
    obtain ⟨dropped', c, hresult', -, htell, hkeep⟩ := PersistentCache.belongs_revalidate hdigest
      hold htext hread hevolved hbelongs
    rw [hvalidated, Prod.mk.injEq] at hresult'
    obtain ⟨-, rfl⟩ := hresult'
    exact ⟨fun htimes => htell (htimes hnone), fun htimes => hkeep fun htell =>
      htimes fun _ => htell⟩
  · have htimely : v.Timely files := by
      intro hnone
      rw [hsome] at hnone
      cases hnone
    refine ⟨fun _ => ?_, fun h => absurd htimely h⟩
    by_cases hsame : textDigest old = textDigest text
    · have heq : old = text := hdigest hold htext hsame
      subst heq
      rw [hunchanged hsome]
      exact hbelongs
    · obtain ⟨c, hresult', -, hc⟩ := PersistentCache.belongs_clear law hread hevolved
      rw [hchanged _ hsome hsame, Prod.mk.injEq] at hresult'
      obtain ⟨-, rfl⟩ := hresult'
      exact hc

end Evolver

end Etymon
