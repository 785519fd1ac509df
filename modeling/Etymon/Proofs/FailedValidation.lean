import Etymon.Proofs.Eviction

/-!
# Validations that fail

A validation reads its sources to compare them with the stamps, and once one of them has changed it
reads all of them to stamp them anew. Where the comparison comes to a source that cannot be read, the
cache is left as it was. Where the stamping comes to one, the entries are left but their stamps are
gone: only the sources in front of it are stamped, so that no later validation lets the cache pass,
whatever the files are then.

## Main definitions

* `PersistentCache.Halts`: the comparison comes to a source that cannot be read.
* `PersistentCache.CutAt`: the first source that cannot be read.
* `PersistentCache.addTimes`, `PersistentCache.addHashes`: the stamps of some sources.

## Main results

* `PersistentCache.CutAt.not_passes`: half of the stamps let a cache pass nowhere.
* `PersistentCache.revalidate_eq_error`: where a failing validation stops.
* `PersistentCache.failing_revalidate_keeps_entries`: what it leaves of a cache.
-/

namespace Etymon.PersistentCache

variable {κ ν : Type} {files files' : FileStore} {c c' : PersistentCache κ ν} {e : Error}

/-! ## The comparison -/

/-- The stamps let sources pass one by one up to one that cannot be read and has a new time. -/
def Stuck (files : FileStore) (c : PersistentCache κ ν) (paths : List Path) (e : Error) : Prop :=
  ∃ before p after, paths = before ++ p :: after ∧ (∀ q ∈ before, c.Vouches files q) ∧
    c.times.get? (sourceKey files p) ≠ some (files.modified p) ∧ files.checksum p = .error e

/-- The stamps are those of the sources, and comparing them comes to a source that cannot be read
before it comes to one that has changed. -/
def Halts (files : FileStore) (c : PersistentCache κ ν) (e : Error) : Prop :=
  c.sameSources files = true ∧ c.Stuck files c.sources e

theorem stuck_cons {p : Path} {rest : List Path} : c.Stuck files (p :: rest) e ↔
    (c.times.get? (sourceKey files p) ≠ some (files.modified p) ∧ files.checksum p = .error e) ∨
      c.Vouches files p ∧ c.Stuck files rest e := by
  constructor
  · rintro ⟨before, p', after, hpaths, hbefore, hhere⟩
    cases before with
    | nil =>
      cases hpaths
      exact .inl hhere
    | cons q before =>
      cases hpaths
      rw [List.forall_mem_cons] at hbefore
      exact .inr ⟨hbefore.1, before, p', after, rfl, hbefore.2, hhere⟩
  · rintro (hhere | ⟨hp, before, p', after, rfl, hbefore, hhere⟩)
    · exact ⟨[], p, rest, rfl, List.forall_mem_nil _, hhere⟩
    · exact ⟨p :: before, p', after, rfl, List.forall_mem_cons.2 ⟨hp, hbefore⟩, hhere⟩

/-- The comparison fails exactly where it comes to a source that cannot be read. -/
theorem renewals?_eq_error_iff {paths : List Path} :
    c.renewals? files paths = .error e ↔ c.Stuck files paths e := by
  induction paths with
  | nil => simp [renewals?, Stuck]
  | cons p rest ih =>
    rw [stuck_cons, renewals?, ← ih]
    by_cases htime : c.times.get? (sourceKey files p) = some (files.modified p)
    · simp [htime, Vouches]
    · cases hsum : files.checksum p with
      | error e' => simp [htime, hsum, Vouches, bind, Except.bind]
      | ok hash =>
        by_cases hhash : c.hashes.get? (sourceKey files p) = some hash
        · cases c.renewals? files rest <;>
            simp [htime, hsum, hhash, Vouches, bind, Except.bind, pure, Except.pure]
        · simp [htime, hsum, hhash, Vouches, bind, Except.bind, pure, Except.pure]

theorem halts_iff :
    c.Halts files e ↔ c.sameSources files = true ∧ c.renewals? files c.sources = .error e := by
  rw [Halts, renewals?_eq_error_iff]

/-! ## The stamping -/

/-- The times of sources on top of other times. -/
def addTimes (files : FileStore) (times : SortedMap Nat) (paths : List Path) : SortedMap Nat :=
  paths.foldl (fun times p => times.insert (sourceKey files p) (files.modified p)) times

/-- The checksums of sources that can be read on top of other checksums. -/
def addHashes (files : FileStore) (hashes : SortedMap String) (paths : List Path) :
    SortedMap String :=
  paths.foldl (fun hashes p =>
    match files.checksum p with
    | .ok hash => hashes.insert (sourceKey files p) hash
    | .error _ => hashes) hashes

theorem size_addHashes_le (files : FileStore) (hashes : SortedMap String) (paths : List Path) :
    (addHashes files hashes paths).size ≤ hashes.size + paths.length := by
  induction paths generalizing hashes with
  | nil => exact Nat.le_refl _
  | cons p rest ih =>
    rw [addHashes, List.foldl_cons, ← addHashes]
    refine (ih _).trans ?_
    split
    · next hash _ =>
      have hsize := hashes.size_insert_le (sourceKey files p) hash
      rw [List.length_cons]
      omega
    · rw [List.length_cons]
      omega

/-- Of some sources, those in `before` can be read, and `p` behind them cannot. -/
structure CutAt (files : FileStore) (paths before : List Path) (p : Path) (e : Error) : Prop where
  split : ∃ after, paths = before ++ p :: after
  readable : ∀ q ∈ before, ∃ hash, files.checksum q = .ok hash
  unreadable : files.checksum p = .error e

/-- Stamping stops behind the time of the first source that cannot be read. -/
theorem exists_cutAt_of_stampAll {paths : List Path} (h : stampAll files paths c = (.error e, c')) :
    ∃ before p, CutAt files paths before p e ∧
      c' = { c with
        times := addTimes files c.times (before ++ [p]), hashes := addHashes files c.hashes before } := by
  induction paths generalizing c with
  | nil => cases h
  | cons p rest ih =>
    rw [stampAll] at h
    cases hsum : files.checksum p with
    | error e' =>
      simp only [hsum] at h
      cases h
      exact ⟨[], p, ⟨⟨rest, rfl⟩, List.forall_mem_nil _, hsum⟩, rfl⟩
    | ok hash =>
      simp only [hsum] at h
      obtain ⟨before, q, ⟨⟨after, rfl⟩, hbefore, hq⟩, rfl⟩ := ih h
      refine ⟨p :: before, q, ⟨⟨after, rfl⟩, List.forall_mem_cons.2 ⟨⟨hash, hsum⟩, hbefore⟩, hq⟩, ?_⟩
      simp [addTimes, addHashes, hsum]

theorem exists_cutAt_of_restamp (h : c.restamp files = (.error e, c')) :
    ∃ before p, CutAt files c.sources before p e ∧
      c' = { c with
        times := addTimes files .empty (before ++ [p]), hashes := addHashes files .empty before } :=
  exists_cutAt_of_stampAll h

/-- With the checksums of the sources in front of one that cannot be read, there is a checksum too few
for a cache to pass, whatever the files are. -/
theorem CutAt.not_passes {before : List Path} {p : Path} {times : SortedMap Nat}
    (h : CutAt files c.sources before p e) (files' : FileStore) :
    ¬ Passes files' { c with times, hashes := addHashes files .empty before } := by
  rintro ⟨hsame, -⟩
  obtain ⟨after, hsplit⟩ := h.split
  have hsize : (addHashes files .empty before).size ≤ before.length :=
    (size_addHashes_le files .empty before).trans_eq (Nat.zero_add _)
  simp only [sameSources, Bool.and_eq_true, beq_iff_eq, hsplit, List.length_append,
    List.length_cons] at hsame
  omega

/-! ## Failing validations -/

/-- A failing validation stops in the comparison, and only if it does not it stops in the stamping. -/
theorem revalidate_eq_error (h : c.revalidate files = (.error e, c')) :
    c.Halts files e ∧ c' = c ∨ ¬ c.Halts files e ∧ c.restamp files = (.error e, c') := by
  have hevict : c.evict files = (.error e, c') → c.restamp files = (.error e, c') := by
    intro h
    rw [evict] at h
    split at h
    · next hstamp =>
      cases h
      exact hstamp
    · cases h
  rw [halts_iff]
  rw [revalidate] at h
  split at h
  · next hsame =>
    split at h
    · next hfound =>
      cases h
      exact .inl ⟨⟨hsame, hfound⟩, rfl⟩
    · next hfound => exact .inr ⟨by simp [hfound], hevict h⟩
    · cases h
    · cases h
  · next hsame => exact .inr ⟨by simp [hsame], hevict h⟩

/-- A failing validation leaves the entries of a cache and whether they are unsaved. If the comparison
has failed it leaves the stamps, too. If not, the stamps are those of the sources in front of one that
cannot be read, and a later validation decides as it would have on the recorded stamps only if these
could not have let the cache pass, either. -/
theorem failing_revalidate_keeps_entries (h : c.revalidate files = (.error e, c')) :
    c.Alike c' ∧ c'.entries = c.entries ∧ c'.unsaved = c.unsaved ∧
      (c.Halts files e → c' = c) ∧
      (¬ c.Halts files e → ∃ before p, CutAt files c.sources before p e ∧
        c'.times = addTimes files .empty (before ++ [p]) ∧
        c'.hashes = addHashes files .empty before) ∧
      ((∀ files', c'.Passes files' ↔ c.Passes files') ↔
        c.Halts files e ∨ ∀ files', ¬ c.Passes files') := by
  rcases revalidate_eq_error h with ⟨hhalts, rfl⟩ | ⟨hmoves, hstamp⟩
  · exact ⟨⟨rfl, rfl, rfl⟩, rfl, rfl, fun _ => rfl, fun hnot => absurd hhalts hnot,
      fun _ => .inl hhalts, fun _ _ => .rfl⟩
  · obtain ⟨before, p, hcut, rfl⟩ := exists_cutAt_of_restamp hstamp
    refine ⟨⟨rfl, rfl, rfl⟩, rfl, rfl, fun hhalts => absurd hhalts hmoves,
      fun _ => ⟨before, p, hcut, rfl, rfl⟩, ?_⟩
    simp only [hcut.not_passes, hmoves, false_iff, false_or]

/-- A cache of two sources; the first is gone by now, and the second is a directory. -/
def uprooted : PersistentCache Query Evolved :=
  { early with
    sources := [⟨"/work/gone.lsc"⟩, ⟨"/work"⟩]
    times := (SortedMap.empty.insert "/work" 1).insert "/work/gone.lsc" 1
    hashes := (SortedMap.empty.insert "/work" "b").insert "/work/gone.lsc" "a" }

/-- Files in which both sources have the times that are recorded. -/
def rooted : FileStore where
  workDir := ["work"]
  nodes := [(["work"], .directory 1), (["work", "gone.lsc"], .file ⟨"", 1, false⟩)]
  clock := 1

theorem passes_uprooted : uprooted.Passes rooted := by
  refine ⟨by decide, fun p hp => .inl ?_⟩
  simp only [uprooted, List.mem_cons, List.not_mem_nil, or_false] at hp
  rcases hp with rfl | rfl <;> decide

/-- The first source has changed, so the comparison does not come to the second one. -/
theorem not_halts_uprooted (e : Error) : ¬ uprooted.Halts voicingFiles e := by
  rw [halts_iff]
  rintro ⟨-, hfound⟩
  have hchanged : uprooted.renewals? voicingFiles uprooted.sources = .ok none := rfl
  rw [hchanged] at hfound
  cases hfound

/-- The stamp of the second source is lost, and with it what the stamps say of the files from before. -/
theorem failing_revalidate_keeps_entries_uprooted :
    ∃ c', uprooted.revalidate voicingFiles = (.error (.io ⟨"/work"⟩ .isDirectory), c') ∧
      c'.entries = uprooted.entries ∧ uprooted.Passes rooted ∧
      ¬ ∀ files', c'.Passes files' ↔ uprooted.Passes files' := by
  have hresult : ∃ c',
      uprooted.revalidate voicingFiles = (.error (.io ⟨"/work"⟩ .isDirectory), c') := ⟨_, rfl⟩
  obtain ⟨c', hresult⟩ := hresult
  obtain ⟨-, hentries, -, -, -, hdecisions⟩ := failing_revalidate_keeps_entries hresult
  refine ⟨c', hresult, hentries, passes_uprooted, fun hsame => ?_⟩
  rcases hdecisions.1 hsame with hhalts | hnever
  · exact not_halts_uprooted _ hhalts
  · exact hnever _ passes_uprooted

end Etymon.PersistentCache
