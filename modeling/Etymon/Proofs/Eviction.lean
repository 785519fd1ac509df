import Etymon.Proofs.Standing

/-!
# When entries are evicted

A validation lets its sources pass one by one, by their times or else by their checksums. Comparing the
checksums of all of them would let through the same sources or fewer: it parts from the validation
exactly where every source passes but the checksum of one of them is no longer the recorded one.

## Main definitions

* `PersistentCache.Current`: the checksum recorded for a source is its present one.
* `PersistentCache.Passes`: the validation finds nothing to evict for.
* `PersistentCache.PassesByHashes`: comparing checksums alone finds nothing to evict for.
* `PersistentCache.Decided`: what a validation leaves of a cache.

## Main results

* `PersistentCache.passes_iff_iff`: where the two decisions are the same.
* `PersistentCache.decided_revalidate`, `PersistentCache.decided_load`: entries are evicted unless the
  cache passes.
-/

namespace Etymon.PersistentCache

variable {κ ν : Type} {files : FileStore} {c c' : PersistentCache κ ν} {p : Path}

/-! ## Two decisions -/

/-- The checksum recorded for a source is its present one. -/
def Current (files : FileStore) (c : PersistentCache κ ν) (p : Path) : Prop :=
  ∃ hash, files.checksum p = .ok hash ∧ c.hashes.get? (sourceKey files p) = some hash

/-- The stamps are those of the sources, and let each of them pass. -/
def Passes (files : FileStore) (c : PersistentCache κ ν) : Prop :=
  c.sameSources files = true ∧ ∀ p ∈ c.sources, c.Vouches files p

/-- The stamps are those of the sources, and hold the present checksum of each of them. -/
def PassesByHashes (files : FileStore) (c : PersistentCache κ ν) : Prop :=
  c.sameSources files = true ∧ ∀ p ∈ c.sources, c.Current files p

theorem PassesByHashes.passes (h : c.PassesByHashes files) : c.Passes files :=
  ⟨h.1, fun p hp => .inr (h.2 p hp)⟩

/-- A single source whose time misleads passes. -/
theorem passes_of_not_timesTell (hsources : c.sources = [p]) (h : ¬ c.TimesTell files) :
    c.Passes files := by
  obtain ⟨hsame, htimes⟩ := same_times_of_not_timesTell hsources h
  exact ⟨hsame, fun q hq => .inl (htimes q hq)⟩

/-- A cache that passes holds the present checksums if no time misleads, and only then. -/
theorem Passes.forall_current_iff (h : c.Passes files) :
    (∀ p ∈ c.sources, c.Current files p) ↔ c.TimesTell files := by
  constructor
  · intro hcurrent _ p hp _
    exact hcurrent p hp
  · intro htell p hp
    rcases h.2 p hp with htime | hcurrent
    · exact htell h.1 p hp htime
    · exact hcurrent

/-- The decisions part where a cache passes although a time misleads, and nowhere else. -/
theorem passes_iff_iff :
    (c.Passes files ↔ c.PassesByHashes files) ↔ (c.Passes files → c.TimesTell files) := by
  constructor
  · intro hsame hpasses
    exact hpasses.forall_current_iff.1 (hsame.1 hpasses).2
  · intro htell
    constructor
    · intro hpasses
      exact ⟨hpasses.1, hpasses.forall_current_iff.2 (htell hpasses)⟩
    · exact PassesByHashes.passes

/-! ## Validation -/

/-- A cache that passes keeps its entries and their checksums, which are the present ones if no time
misleads, and only then; any other cache loses its entries. -/
structure Decided (files : FileStore) (c c' : PersistentCache κ ν) : Prop where
  kept : c.Passes files → c'.entries = c.entries ∧ c'.hashes = c.hashes ∧
    ((∀ p ∈ c.sources, c'.Current files p) ↔ c.TimesTell files)
  evicted : ¬ c.Passes files → c'.entries = []

theorem exists_renewals?_of_vouches {paths : List Path} (h : ∀ p ∈ paths, c.Vouches files p) :
    ∃ renewed, c.renewals? files paths = .ok (some renewed) := by
  induction paths with
  | nil => exact ⟨[], rfl⟩
  | cons p rest ih =>
    rw [List.forall_mem_cons] at h
    obtain ⟨renewed, hrest⟩ := ih h.2
    rw [renewals?]
    split
    · exact ⟨renewed, hrest⟩
    · next htime =>
      obtain ⟨hash, hsum, hhash⟩ := h.1.resolve_left htime
      refine ⟨(sourceKey files p, files.modified p) :: renewed, ?_⟩
      simp [hsum, hhash, hrest, bind, Except.bind, pure, Except.pure]

/-- Validating a cache that passes succeeds, and renews its times at most. -/
theorem Passes.revalidate (h : c.Passes files) :
    ∃ times unsaved, c.revalidate files = (.ok false, { c with times, unsaved }) := by
  obtain ⟨renewed, hrenewed⟩ := exists_renewals?_of_vouches h.2
  rw [PersistentCache.revalidate, if_pos h.1, hrenewed]
  cases renewed with
  | nil => exact ⟨c.times, c.unsaved, rfl⟩
  | cons item rest => exact ⟨_, true, rfl⟩

/-- What does not pass is evicted. -/
theorem revalidate_of_not_passes (h : ¬ c.Passes files) :
    (∃ e, (c.revalidate files).1 = .error e) ∨ c.revalidate files = c.evict files := by
  rw [revalidate]
  split
  · next hsame =>
    split
    · next e _ => exact .inl ⟨e, rfl⟩
    · exact .inr rfl
    · next hrenewed => exact absurd ⟨hsame, (renewals?_eq_ok_some hrenewed).1⟩ h
    · next hrenewed => exact absurd ⟨hsame, (renewals?_eq_ok_some hrenewed).1⟩ h
  · exact .inr rfl

theorem evict_eq_ok {dropped : Bool} (h : c.evict files = (.ok dropped, c')) :
    ∃ c₁, c.restamp files = (.ok (), c₁) ∧ dropped = !c.entries.isEmpty ∧
      c' = { c₁ with entries := [], unsaved := true } := by
  rw [evict] at h
  split at h
  · cases h
  · next c₁ hstamp =>
    obtain ⟨-, -, hentries, -⟩ := restamp_spec hstamp
    rw [Prod.mk.injEq, Except.ok.injEq] at h
    exact ⟨c₁, hstamp, by rw [← h.1, hentries], h.2.symm⟩

theorem decided_of_passes {times : SortedMap Nat} {unsaved : Bool} (h : c.Passes files) :
    c.Decided files { c with times, unsaved } :=
  ⟨fun _ => ⟨rfl, rfl, h.forall_current_iff⟩, fun hnot => absurd h hnot⟩

/-- A validation that succeeds decides as the cache passes, and tells what it did. -/
theorem decided_revalidate {dropped : Bool} (h : c.revalidate files = (.ok dropped, c')) :
    c.Decided files c' ∧ (dropped = true ↔ ¬ c.Passes files ∧ c.entries ≠ []) := by
  by_cases hpasses : c.Passes files
  · obtain ⟨times, unsaved, hresult⟩ := hpasses.revalidate
    rw [hresult, Prod.mk.injEq, Except.ok.injEq] at h
    obtain ⟨rfl, rfl⟩ := h
    exact ⟨decided_of_passes hpasses, by simp [hpasses]⟩
  · rcases revalidate_of_not_passes hpasses with ⟨e, herror⟩ | hevict
    · rw [h] at herror
      cases herror
    · obtain ⟨c₁, -, rfl, rfl⟩ := evict_eq_ok (hevict.symm.trans h)
      refine ⟨⟨fun hnow => absurd hnow hpasses, fun _ => rfl⟩, ?_⟩
      simp [hpasses]

/-- So does an opening, which also gives up the entries that cannot be validated. -/
theorem decided_load [DecidableEq κ] (keys : Codec κ) (values : Codec ν) (files : FileStore)
    (path : Path) (sources : List Path) (settings : String) :
    (ofFile keys values files path sources settings).Decided files
      (load keys values files path sources settings) := by
  rw [load]
  split
  · next hresult => exact (decided_revalidate hresult).1
  · next e c' herror =>
    refine ⟨fun hpasses => ?_, fun _ => rfl⟩
    obtain ⟨times, unsaved, hresult⟩ := hpasses.revalidate
    rw [hresult] at herror
    cases herror

/-- Entries stay exactly where the stamps let every source pass, and then the checksums recorded with
them are the present ones exactly if no time misleads. -/
theorem evicts_unless_times_mislead [DecidableEq κ] (keys : Codec κ) (values : Codec ν)
    (files : FileStore) :
    (∀ (c c' : PersistentCache κ ν) (dropped : Bool), c.revalidate files = (.ok dropped, c') →
      c.Decided files c' ∧ (dropped = true ↔ ¬ c.Passes files ∧ c.entries ≠ [])) ∧
    (∀ (path : Path) (sources : List Path) (settings : String),
      (ofFile keys values files path sources settings).Decided files
        (load keys values files path sources settings)) ∧
    ∀ c : PersistentCache κ ν,
      (c.Passes files ↔ c.PassesByHashes files) ↔ (c.Passes files → c.TimesTell files) :=
  ⟨fun _ _ _ => decided_revalidate, decided_load keys values files, fun _ => passes_iff_iff⟩

/-- A cache that was stamped before its source was created. -/
def early : PersistentCache Query Evolved where
  path := ⟨"cache"⟩
  sources := [⟨"/work/changes.lsc"⟩]
  settings := ""
  entries := [(.leaf "ata" none none, ⟨"ata", "ata", "ata"⟩)]
  times := SortedMap.empty.insert "/work/changes.lsc" 0
  hashes := SortedMap.empty.insert "/work/changes.lsc" FileStore.missingChecksum
  unsaved := false

theorem not_current_early : ¬ early.Current voicingFiles ⟨"/work/changes.lsc"⟩ := by
  rintro ⟨hash, hsum, hhash⟩
  have hread : voicingFiles.read ⟨"/work/changes.lsc"⟩ = .ok voicingText := by decide
  have hkey : early.hashes.get? (sourceKey voicingFiles ⟨"/work/changes.lsc"⟩) =
      some FileStore.missingChecksum := by decide
  rw [hkey, Option.some.injEq] at hhash
  rw [← hhash, FileStore.checksum_eq_missing_iff, hread] at hsum
  cases hsum

/-- The source has been created with the time that a missing one has: its entry is not evicted. -/
theorem evicts_unless_times_mislead_early :
    early.revalidate voicingFiles = (.ok false, early) ∧ early.entries ≠ [] ∧
      ¬ early.PassesByHashes voicingFiles ∧ early.Passes voicingFiles ∧
      ¬ early.TimesTell voicingFiles := by
  have hresult : early.revalidate voicingFiles = (.ok false, early) :=
    revalidate_of_same_times (by decide) (by simp only [early, List.forall_mem_singleton]; decide)
  have hstale : ¬ early.PassesByHashes voicingFiles := fun h =>
    not_current_early (h.2 _ (List.mem_singleton.2 rfl))
  obtain ⟨hrevalidate, -, hdecisions⟩ :=
    evicts_unless_times_mislead (κ := Query) (ν := Evolved) Query.codec Evolved.codec voicingFiles
  obtain ⟨hdecided, -⟩ := hrevalidate early early false hresult
  have hpasses : early.Passes voicingFiles := by
    by_contra hnot
    cases hdecided.evicted hnot
  refine ⟨hresult, List.cons_ne_nil _ _, hstale, hpasses, fun htell => hstale ?_⟩
  exact ((hdecisions early).2 fun _ => htell).1 hpasses

end Etymon.PersistentCache
