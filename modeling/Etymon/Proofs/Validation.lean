import Etymon.Cache.Persistent
import Etymon.Proofs.Action

/-!
# Validating caches

A cache that is validated either keeps its entries, because its stamps let every source pass, or drops
them and takes new stamps. A stamp lets a source pass by its time alone, so the entries are known to
belong to the content of the sources only as far as times tell contents apart.

## Main definitions

* `PersistentCache.Vouches`: the stamps let a source pass.
* `PersistentCache.TimesTell`: whatever passes by its time would pass by its checksum.
* `PersistentCache.Stamped`: the stamps were taken of given sources.

## Main results

* `PersistentCache.revalidate_eq_ok`: what validation does to a cache.
* `PersistentCache.exists_revalidate_eq_ok`: validation succeeds when every source can be read.
* `PersistentCache.revalidate_of_same_times`: checksums do not matter where times are unchanged.
* `PersistentCache.revalidate_of_not_timesTell`: a single source that passes by its time alone.
-/

namespace Etymon

/-! ## Items of sorted maps -/

theorem SortedMap.mem_items_insert {α : Type} {m : SortedMap α} {key : String} {value : α}
    {item : String × α} (h : item ∈ (m.insert key value).items) :
    item = (key, value) ∨ item ∈ m.items :=
  mem_of_mem_insertSorted h

namespace PersistentCache

variable {κ ν : Type} {files : FileStore} {c c' : PersistentCache κ ν} {p : Path}

/-- Caches of one file, with the same sources and settings. -/
def Alike (c c' : PersistentCache κ ν) : Prop :=
  c'.path = c.path ∧ c'.sources = c.sources ∧ c'.settings = c.settings

/-- The stamps let a source pass: its time is the recorded one, or its checksum is. -/
def Vouches (files : FileStore) (c : PersistentCache κ ν) (p : Path) : Prop :=
  c.times.get? (sourceKey files p) = some (files.modified p) ∨
    ∃ hash, files.checksum p = .ok hash ∧ c.hashes.get? (sourceKey files p) = some hash

/-- A source whose time is the recorded one has the recorded checksum, too; stamps of other sources
do not count. -/
def TimesTell (files : FileStore) (c : PersistentCache κ ν) : Prop :=
  c.sameSources files = true → ∀ p ∈ c.sources,
    c.times.get? (sourceKey files p) = some (files.modified p) →
      ∃ hash, files.checksum p = .ok hash ∧ c.hashes.get? (sourceKey files p) = some hash

/-! ## Stamps -/

/-- The stamps were taken of the given sources as they are. -/
def Stamped (files : FileStore) (paths : List Path) (c : PersistentCache κ ν) : Prop :=
  (∀ item ∈ c.times.items, ∃ p ∈ paths, item = (sourceKey files p, files.modified p)) ∧
    ∀ item ∈ c.hashes.items, ∃ p ∈ paths, item.1 = sourceKey files p ∧
      files.checksum p = .ok item.2

theorem stampAll_spec (done : List Path) {rest : List Path} (hdone : c.Stamped files done)
    (h : stampAll files rest c = (.ok (), c')) :
    c'.Stamped files (done ++ rest) ∧ c.Alike c' ∧ c'.entries = c.entries ∧
      c'.unsaved = c.unsaved := by
  induction rest generalizing c done with
  | nil =>
    rw [stampAll, Prod.mk.injEq] at h
    obtain ⟨-, rfl⟩ := h
    exact ⟨by rwa [List.append_nil], ⟨rfl, rfl, rfl⟩, rfl, rfl⟩
  | cons p rest ih =>
    rw [stampAll] at h
    cases hsum : files.checksum p with
    | error e => simp [hsum] at h
    | ok hash =>
      simp only [hsum] at h
      have hnext := ih (done ++ [p]) ⟨?_, ?_⟩ h
      · rwa [List.append_assoc] at hnext
      · intro item hitem
        rcases SortedMap.mem_items_insert hitem with rfl | hitem
        · exact ⟨p, by simp, rfl⟩
        · obtain ⟨q, hq, rfl⟩ := hdone.1 item hitem
          exact ⟨q, by simp [hq], rfl⟩
      · intro item hitem
        rcases SortedMap.mem_items_insert hitem with rfl | hitem
        · exact ⟨p, by simp, rfl, hsum⟩
        · obtain ⟨q, hq, hkey⟩ := hdone.2 item hitem
          exact ⟨q, by simp [hq], hkey⟩

theorem restamp_spec (h : c.restamp files = (.ok (), c')) :
    c'.Stamped files c.sources ∧ c.Alike c' ∧ c'.entries = c.entries ∧ c'.unsaved = c.unsaved := by
  have hblank : Stamped files [] { c with times := .empty, hashes := .empty } :=
    ⟨fun item hitem => (by cases hitem), fun item hitem => (by cases hitem)⟩
  have hspec := stampAll_spec [] hblank h
  exact hspec

theorem exists_stampAll_eq_ok {paths : List Path}
    (h : ∀ p ∈ paths, ∃ hash, files.checksum p = .ok hash) :
    ∃ c', stampAll files paths c = (.ok (), c') := by
  induction paths generalizing c with
  | nil => exact ⟨c, rfl⟩
  | cons p rest ih =>
    rw [List.forall_mem_cons] at h
    obtain ⟨hash, hsum⟩ := h.1
    rw [stampAll, hsum]
    exact ih h.2

/-- Stamping only changes stamps, also where a source cannot be read. -/
theorem alike_stampAll (files : FileStore) (paths : List Path) (c : PersistentCache κ ν) :
    c.Alike (stampAll files paths c).2 := by
  induction paths generalizing c with
  | nil => exact ⟨rfl, rfl, rfl⟩
  | cons p rest ih =>
    rw [stampAll]
    cases files.checksum p with
    | error e => exact ⟨rfl, rfl, rfl⟩
    | ok hash => exact ih _

/-! ## Validation -/

theorem renewals?_eq_ok_some {paths : List Path} {renewed : List (String × Nat)}
    (h : c.renewals? files paths = .ok (some renewed)) :
    (∀ p ∈ paths, c.Vouches files p) ∧
      ∀ item ∈ renewed, ∃ p ∈ paths, item = (sourceKey files p, files.modified p) := by
  induction paths generalizing renewed with
  | nil =>
    rw [renewals?, Except.ok.injEq, Option.some.injEq] at h
    simp [← h]
  | cons p rest ih =>
    rw [renewals?] at h
    split at h
    · next htime =>
      obtain ⟨hvouch, hitems⟩ := ih h
      refine ⟨List.forall_mem_cons.2 ⟨.inl htime, hvouch⟩, fun item hitem => ?_⟩
      obtain ⟨q, hq, heq⟩ := hitems item hitem
      exact ⟨q, by simp [hq], heq⟩
    · obtain ⟨hash, hsum, h⟩ := bind_eq_ok_iff.1 h
      split at h
      · next hhash =>
        obtain ⟨found, hfound, h⟩ := bind_eq_ok_iff.1 h
        simp only [pure, Except.pure, Except.ok.injEq] at h
        cases found with
        | none => cases h
        | some others =>
          obtain ⟨hvouch, hitems⟩ := ih hfound
          simp only [Option.map_some, Option.some.injEq] at h
          subst h
          refine ⟨List.forall_mem_cons.2 ⟨.inr ⟨hash, hsum, hhash⟩, hvouch⟩, fun item hitem => ?_⟩
          rcases List.mem_cons.1 hitem with rfl | hitem
          · exact ⟨p, by simp, rfl⟩
          · obtain ⟨q, hq, heq⟩ := hitems item hitem
            exact ⟨q, by simp [hq], heq⟩
      · simp [pure, Except.pure] at h

theorem exists_renewals?_eq_ok {paths : List Path}
    (h : ∀ p ∈ paths, ∃ hash, files.checksum p = .ok hash) :
    ∃ found, c.renewals? files paths = .ok found := by
  induction paths with
  | nil => exact ⟨_, rfl⟩
  | cons p rest ih =>
    rw [List.forall_mem_cons] at h
    obtain ⟨hash, hsum⟩ := h.1
    obtain ⟨found, hfound⟩ := ih h.2
    rw [renewals?, hsum]
    split
    · exact ⟨found, hfound⟩
    · simp only [bind, Except.bind]
      split
      · exact ⟨_, by rw [hfound]; rfl⟩
      · exact ⟨none, rfl⟩

theorem mem_items_foldl_insert {α : Type} {added : List (String × α)} {m : SortedMap α}
    {item : String × α}
    (h : item ∈ (added.foldl (fun m item => m.insert item.1 item.2) m).items) :
    item ∈ added ∨ item ∈ m.items := by
  induction added generalizing m with
  | nil => exact .inr h
  | cons first rest ih =>
    rcases ih h with h | h
    · exact .inl (List.mem_cons_of_mem _ h)
    · rcases SortedMap.mem_items_insert h with rfl | h
      · exact .inl (by simp)
      · exact .inr h

/-- A validated cache has kept its entries, and its stamps let every source pass; or it has dropped
them, and its stamps are new. -/
theorem revalidate_eq_ok {dropped : Bool} (h : c.revalidate files = (.ok dropped, c')) :
    c.Alike c' ∧
      (c'.entries = c.entries ∧ c'.hashes = c.hashes ∧ c.sameSources files = true ∧
        (∀ p ∈ c.sources, c.Vouches files p) ∧
        (∀ item ∈ c'.times.items, item ∈ c.times.items ∨ ∃ p, item.2 = files.modified p) ∨
      c'.entries = [] ∧ c'.Stamped files c.sources) := by
  have hevict : c.evict files = (.ok dropped, c') →
      c.Alike c' ∧ c'.entries = [] ∧ c'.Stamped files c.sources := by
    intro h
    rw [evict] at h
    split at h
    · cases h
    · next c₁ hstamp =>
      obtain ⟨hstamped, halike, -, -⟩ := restamp_spec hstamp
      rw [Prod.mk.injEq] at h
      obtain ⟨-, rfl⟩ := h
      exact ⟨halike, rfl, hstamped⟩
  rw [revalidate] at h
  split at h
  · next hsame =>
    split at h
    · cases h
    · obtain ⟨halike, hdropped⟩ := hevict h
      exact ⟨halike, .inr hdropped⟩
    · next hrenew =>
      rw [Prod.mk.injEq] at h
      obtain ⟨-, rfl⟩ := h
      exact ⟨⟨rfl, rfl, rfl⟩, .inl ⟨rfl, rfl, hsame, (renewals?_eq_ok_some hrenew).1,
        fun item hitem => .inl hitem⟩⟩
    · next renewed _ hrenew =>
      rw [Prod.mk.injEq] at h
      obtain ⟨-, rfl⟩ := h
      obtain ⟨hvouch, hitems⟩ := renewals?_eq_ok_some hrenew
      refine ⟨⟨rfl, rfl, rfl⟩, .inl ⟨rfl, rfl, hsame, hvouch, fun item hitem => ?_⟩⟩
      rcases mem_items_foldl_insert hitem with hitem | hitem
      · obtain ⟨p, -, rfl⟩ := hitems item hitem
        exact .inr ⟨p, rfl⟩
      · exact .inl hitem
  · obtain ⟨halike, hdropped⟩ := hevict h
    exact ⟨halike, .inr hdropped⟩

theorem alike_evict (files : FileStore) (c : PersistentCache κ ν) : c.Alike (c.evict files).2 := by
  have halike : c.Alike (c.restamp files).2 := alike_stampAll files _ _
  rw [evict]
  rcases hresult : c.restamp files with ⟨e | _, c'⟩
  all_goals
    rw [hresult] at halike
    exact halike

/-- A cache stays the cache of its file, its sources and its settings, however a validation ends. -/
theorem alike_revalidate (files : FileStore) (c : PersistentCache κ ν) :
    c.Alike (c.revalidate files).2 := by
  rw [revalidate]
  split
  · split
    · exact ⟨rfl, rfl, rfl⟩
    · exact alike_evict files c
    · exact ⟨rfl, rfl, rfl⟩
    · exact ⟨rfl, rfl, rfl⟩
  · exact alike_evict files c

theorem exists_evict_eq_ok (h : ∀ p ∈ c.sources, ∃ hash, files.checksum p = .ok hash) :
    ∃ dropped c', c.evict files = (.ok dropped, c') := by
  obtain ⟨c', hstamp⟩ : ∃ c', c.restamp files = (.ok (), c') := exists_stampAll_eq_ok h
  exact ⟨_, _, by rw [evict, hstamp]⟩

theorem exists_revalidate_eq_ok (h : ∀ p ∈ c.sources, ∃ hash, files.checksum p = .ok hash) :
    ∃ dropped c', c.revalidate files = (.ok dropped, c') := by
  rw [revalidate]
  split
  · obtain ⟨found, hfound⟩ := exists_renewals?_eq_ok (c := c) h
    rw [hfound]
    match found with
    | none => exact exists_evict_eq_ok h
    | some [] => exact ⟨_, _, rfl⟩
    | some (_ :: _) => exact ⟨_, _, rfl⟩
  · exact exists_evict_eq_ok h

/-- Where no time is new, nothing is dropped, whatever has become of the sources. -/
theorem revalidate_of_same_times (hsame : c.sameSources files = true)
    (htimes : ∀ p ∈ c.sources, c.times.get? (sourceKey files p) = some (files.modified p)) :
    c.revalidate files = (.ok false, c) := by
  have hnone : ∀ paths : List Path,
      (∀ p ∈ paths, c.times.get? (sourceKey files p) = some (files.modified p)) →
      c.renewals? files paths = .ok (some []) := by
    intro paths
    induction paths with
    | nil => exact fun _ => rfl
    | cons p rest ih =>
      intro h
      rw [List.forall_mem_cons] at h
      rw [renewals?, if_pos h.1]
      exact ih h.2
  rw [revalidate, if_pos hsame, hnone _ htimes]

/-- If the time of a single source does not tell its texts apart, it is the recorded one. -/
theorem same_times_of_not_timesTell (hsources : c.sources = [p]) (h : ¬ c.TimesTell files) :
    c.sameSources files = true ∧
      ∀ q ∈ c.sources, c.times.get? (sourceKey files q) = some (files.modified q) := by
  unfold TimesTell at h
  push Not at h
  obtain ⟨hsame, q, hq, htime, -⟩ := h
  refine ⟨hsame, fun q' hq' => ?_⟩
  rw [hsources, List.mem_singleton] at hq hq'
  rw [hq', ← hq]
  exact htime

/-- Then the cache stays as it is. -/
theorem revalidate_of_not_timesTell (hsources : c.sources = [p]) (h : ¬ c.TimesTell files) :
    c.revalidate files = (.ok false, c) := by
  obtain ⟨hsame, htimes⟩ := same_times_of_not_timesTell hsources h
  exact revalidate_of_same_times hsame htimes

theorem clear_eq_ok (h : c.clear files = (.ok (), c')) :
    c.Alike c' ∧ c'.entries = [] ∧ c'.Stamped files c.sources := by
  obtain ⟨hstamped, halike, hentries, -⟩ := restamp_spec h
  exact ⟨halike, hentries, hstamped⟩

theorem exists_clear_eq_ok (h : ∀ p ∈ c.sources, ∃ hash, files.checksum p = .ok hash) :
    ∃ c', c.clear files = (.ok (), c') :=
  exists_stampAll_eq_ok h

end PersistentCache

end Etymon
