import Etymon.Proofs.Eviction
import Mathlib.Data.List.Perm.Subperm

/-!
# Saved entries come back

A cache is opened, filled, cleared, validated, saved and dropped while its sources are edited. Whatever
has happened, the file of a cache that was saved gives back its entries to anyone who opens it with the
same settings and the same sources, as long as the sources have the checksums they were stamped with;
with other settings or other sources it gives back nothing.

## Main definitions

* `PersistentCache.Tallies`: there is one stamp for each source.
* `PersistentCache.Backed`: the file of a cache gives back its entries.
* `PersistentCache.Orderly`: a cache with nothing unsaved is backed.
* `PersistentCache.IsStampOf`: a stamp is the one that a source has now.
* `Holding`: a cache, when one is open, and the files around it.
* `Holding.Reached`: what a history of openings, changes, savings and edits leads to.

## Main results

* `Holding.upheld_of_reached`: caches are orderly, and their stamps tally with their sources.
* `Holding.saved_entries_come_back`: what an opening finds after a cache was saved.
-/

namespace Etymon

namespace PersistentCache

variable {κ ν : Type} {files files' : FileStore} {c c' : PersistentCache κ ν} {p : Path}

/-! ## Keys of sources -/

/-- The key of a source leads to where the source lies. -/
theorem target_sourceKey (hdir : FileStore.IsProper files.workDir) (p : Path) :
    files.target ⟨sourceKey files p⟩ = files.target p := by
  rw [sourceKey, FileStore.canonical]
  cases hfind : files.find p with
  | error fault => rfl
  | ok found =>
    obtain ⟨l, n⟩ := found
    have hl : l = files.target p :=
      FileStore.eq_target_of_locate (FileStore.find_eq_ok_iff.1 hfind).1
    rw [hl]
    exact FileStore.target_absolute (FileStore.isProper_target hdir p)

/-- Sources that lie in different places have different keys. -/
theorem nodup_sourceKeys (hdir : FileStore.IsProper files.workDir) {sources : List Path}
    (h : (sources.map files.target).Nodup) : (sources.map (sourceKey files)).Nodup := by
  have hcomp : (fun key => files.target ⟨key⟩) ∘ sourceKey files = files.target :=
    funext (target_sourceKey hdir)
  refine List.Nodup.of_map (fun key => files.target ⟨key⟩) ?_
  rwa [List.map_map, hcomp]

theorem sameSources_iff : c.sameSources files = true ↔ c.sources.length = c.hashes.size ∧
    ∀ p ∈ c.sources, c.hashes.contains (sourceKey files p) = true := by
  simp [sameSources]

/-- There is one stamp for each source, and none of anything else. -/
structure Tallies (files : FileStore) (c : PersistentCache κ ν) : Prop where
  size : c.hashes.size = c.sources.length
  sources : ∀ stamp ∈ c.hashes.items, ∃ p ∈ c.sources, files.target ⟨stamp.1⟩ = files.target p

theorem Tallies.congr (h : c.Tallies files) (hdir : files'.workDir = files.workDir) :
    c.Tallies files' := by
  refine ⟨h.size, ?_⟩
  rw [FileStore.target_congr hdir]
  exact h.sources

/-- As many stamps as sources, and each source among them: there are no others. -/
theorem tallies_of_sameSources (hdir : FileStore.IsProper files.workDir)
    (hnodup : (c.sources.map files.target).Nodup) (h : c.sameSources files = true) :
    c.Tallies files := by
  obtain ⟨hlength, hcontains⟩ := sameSources_iff.1 h
  refine ⟨hlength.symm, fun stamp hstamp => ?_⟩
  have hsubset : c.sources.map (sourceKey files) ⊆ c.hashes.items.map Prod.fst := by
    intro key hkey
    obtain ⟨p, hp, rfl⟩ := List.mem_map.1 hkey
    obtain ⟨hash, hhash⟩ := Option.isSome_iff_exists.1 (hcontains p hp)
    exact List.mem_map_of_mem (f := Prod.fst) (mem_of_lookup_eq_some hhash)
  -- distinct keys that are all stamped, and as many as there are stamps
  have hperm : (c.sources.map (sourceKey files)).Perm (c.hashes.items.map Prod.fst) := by
    refine ((nodup_sourceKeys hdir hnodup).subperm hsubset).perm_of_length_le ?_
    rw [List.length_map, List.length_map, hlength, SortedMap.size]
  obtain ⟨p, hp, hkey⟩ := List.mem_map.1 (hperm.symm.subset (List.mem_map_of_mem hstamp))
  exact ⟨p, hp, by rw [← hkey, target_sourceKey hdir]⟩

/-- Stamps that are those of other sources, too, are stamps of the same files. -/
theorem Tallies.perm_of_sameSources (hdir : FileStore.IsProper files.workDir)
    (htallies : c.Tallies files) (h : c'.sameSources files = true)
    (hhashes : c'.hashes = c.hashes) (hnodup : (c'.sources.map files.target).Nodup) :
    (c'.sources.map files.target).Perm (c.sources.map files.target) := by
  obtain ⟨hlength, hcontains⟩ := sameSources_iff.1 h
  have hsubset : c'.sources.map files.target ⊆ c.sources.map files.target := by
    intro l hl
    obtain ⟨p, hp, rfl⟩ := List.mem_map.1 hl
    obtain ⟨hash, hhash⟩ := Option.isSome_iff_exists.1 (hcontains p hp)
    rw [hhashes] at hhash
    obtain ⟨q, hq, htarget⟩ := htallies.sources _ (mem_of_lookup_eq_some hhash)
    rw [target_sourceKey hdir] at htarget
    rw [htarget]
    exact List.mem_map_of_mem hq
  refine (hnodup.subperm hsubset).perm_of_length_le ?_
  rw [List.length_map, List.length_map, hlength, hhashes, htallies.size]

/-- Every source gets a stamp of its own. -/
theorem contains_stampAll {paths : List Path} (hkeys : (paths.map (sourceKey files)).Nodup)
    (hnew : ∀ p ∈ paths, c.hashes.contains (sourceKey files p) = false)
    (h : stampAll files paths c = (.ok (), c')) :
    c'.hashes.size = c.hashes.size + paths.length ∧
      ∀ key, c'.hashes.contains key = true ↔
        key ∈ paths.map (sourceKey files) ∨ c.hashes.contains key = true := by
  induction paths generalizing c with
  | nil =>
    rw [stampAll, Prod.mk.injEq] at h
    obtain ⟨-, rfl⟩ := h
    simp
  | cons p rest ih =>
    rw [stampAll] at h
    cases hsum : files.checksum p with
    | error e => simp [hsum] at h
    | ok hash =>
      simp only [hsum] at h
      rw [List.map_cons, List.nodup_cons] at hkeys
      rw [List.forall_mem_cons] at hnew
      have hnext : ∀ q ∈ rest,
          (c.hashes.insert (sourceKey files p) hash).contains (sourceKey files q) = false := by
        intro q hq
        have hne : sourceKey files q ≠ sourceKey files p := fun heq =>
          hkeys.1 (heq ▸ List.mem_map_of_mem hq)
        rw [Bool.eq_false_iff, Ne, SortedMap.contains_insert, hnew.2 q hq]
        simp [hne]
      obtain ⟨hsize, hcontains⟩ := ih hkeys.2 hnext h
      constructor
      · rw [hsize, SortedMap.size_insert_of_not_contains hash hnew.1, List.length_cons]
        omega
      · intro key
        rw [hcontains, SortedMap.contains_insert, List.map_cons, List.mem_cons]
        tauto

theorem sameSources_of_restamp (hdir : FileStore.IsProper files.workDir)
    (hnodup : (c.sources.map files.target).Nodup) (h : c.restamp files = (.ok (), c')) :
    c'.sameSources files = true := by
  obtain ⟨hsize, hcontains⟩ := contains_stampAll (nodup_sourceKeys hdir hnodup)
    (fun _ _ => rfl) h
  obtain ⟨-, ⟨-, hsources, -⟩, -, -⟩ := restamp_spec h
  rw [sameSources_iff, hsources]
  refine ⟨?_, fun p hp => (hcontains _).2 (.inl (List.mem_map_of_mem hp))⟩
  rw [hsize]
  exact (Nat.zero_add _).symm

/-- After a validation the stamps are those of the sources. -/
theorem sameSources_of_revalidate (hdir : FileStore.IsProper files.workDir)
    (hnodup : (c.sources.map files.target).Nodup) {dropped : Bool}
    (h : c.revalidate files = (.ok dropped, c')) : c'.sameSources files = true := by
  by_cases hpasses : c.Passes files
  · obtain ⟨times, unsaved, hresult⟩ := hpasses.revalidate
    rw [hresult, Prod.mk.injEq] at h
    rw [← h.2]
    exact hpasses.1
  · rcases revalidate_of_not_passes hpasses with ⟨e, herror⟩ | hevict
    · rw [h] at herror
      cases herror
    · obtain ⟨c₁, hstamp, -, rfl⟩ := evict_eq_ok (hevict.symm.trans h)
      have hsame : c₁.sameSources files = true := sameSources_of_restamp hdir hnodup hstamp
      exact hsame

/-- A validation that leaves nothing to be saved has changed nothing. -/
theorem eq_of_revalidate {dropped : Bool} (h : c.revalidate files = (.ok dropped, c'))
    (hsaved : c'.unsaved = false) : c' = c := by
  have hevict : c.evict files ≠ (.ok dropped, c') := by
    intro hevict
    obtain ⟨c₁, -, -, rfl⟩ := evict_eq_ok hevict
    cases hsaved
  rw [revalidate] at h
  split at h
  · split at h
    · cases h
    · exact absurd h hevict
    · rw [Prod.mk.injEq] at h
      exact h.2.symm
    · rw [Prod.mk.injEq] at h
      rw [← h.2] at hsaved
      cases hsaved
  · exact absurd h hevict

theorem Stamped.times_lt {paths : List Path} (h : c.Stamped files paths) :
    ∀ item ∈ c.times.items, item.2 < 18446744073709551616 := by
  intro item hitem
  obtain ⟨p, -, rfl⟩ := h.1 item hitem
  exact files.modified_lt p

/-! ## Entries -/

section

variable [DecidableEq κ]

theorem map_fst_setEntry (key : κ) (value : ν) (entries : List (κ × ν)) :
    (setEntry key value entries).map Prod.fst =
      if key ∈ entries.map Prod.fst then entries.map Prod.fst
      else entries.map Prod.fst ++ [key] := by
  fun_induction setEntry key value entries <;> grind

theorem nodup_setEntry {key : κ} {value : ν} {entries : List (κ × ν)}
    (h : (entries.map Prod.fst).Nodup) : ((setEntry key value entries).map Prod.fst).Nodup := by
  rw [map_fst_setEntry]
  split
  · exact h
  · next hnew =>
    rw [← List.concat_eq_append]
    exact List.Nodup.concat hnew h

theorem nodup_foldl_setEntry {entries known : List (κ × ν)} (h : (known.map Prod.fst).Nodup) :
    ((entries.foldl (fun known e => setEntry e.1 e.2 known) known).map Prod.fst).Nodup := by
  induction entries generalizing known with
  | nil => exact h
  | cons first rest ih => exact ih (nodup_setEntry h)

/-- Where no key occurs twice, it makes no difference that later entries count. -/
theorem lookup_foldl_setEntry {entries : List (κ × ν)} (h : (entries.map Prod.fst).Nodup)
    (known : List (κ × ν)) (key : κ) :
    (entries.foldl (fun known e => setEntry e.1 e.2 known) known).lookup key =
      (entries.lookup key).or (known.lookup key) := by
  induction entries generalizing known with
  | nil => rfl
  | cons first rest ih =>
    rw [List.map_cons, List.nodup_cons] at h
    rw [List.foldl_cons, ih h.2]
    by_cases hkey : key = first.1
    · have hnone : rest.lookup key = none := by
        rw [List.lookup_eq_none_iff]
        rintro entry hentry
        rw [hkey, bne_iff_ne]
        intro heq
        exact h.1 (heq ▸ List.mem_map_of_mem (f := Prod.fst) hentry)
      rw [hnone, hkey, lookup_setEntry_self, List.lookup_cons, beq_self_eq_true]
      rfl
    · rw [lookup_setEntry_of_ne _ hkey, List.lookup_cons, beq_eq_false_iff_ne.2 hkey]

/-! ## What files hold -/

theorem lt_of_time? {value : Json} {n : Nat} (h : time? value = some n) :
    n < 18446744073709551616 := by
  obtain ⟨i, -, h⟩ := Option.bind_eq_some_iff.1 h
  split at h
  · next hi =>
    rw [Option.some.injEq] at h
    omega
  · cases h

theorem exists_mem_of_mem_mapM {α β : Type} {decode : β → Option α} {items : List β}
    {found : List α} (h : items.mapM decode = some found) {a : α} (ha : a ∈ found) :
    ∃ item ∈ items, decode item = some a := by
  induction items generalizing found with
  | nil =>
    rw [List.mapM_nil, Option.pure_def, Option.some.injEq] at h
    subst h
    cases ha
  | cons first rest ih =>
    rw [List.mapM_cons] at h
    obtain ⟨b, hb, h⟩ := Option.bind_eq_some_iff.1 h
    obtain ⟨others, hothers, h⟩ := Option.bind_eq_some_iff.1 h
    rw [Option.pure_def, Option.some.injEq] at h
    subst h
    rcases List.mem_cons.1 ha with rfl | ha
    · exact ⟨first, by simp, hb⟩
    · obtain ⟨item, hitem, heq⟩ := ih hothers ha
      exact ⟨item, List.mem_cons_of_mem _ hitem, heq⟩

/-- Every value of a map that is read from a file was read by itself. -/
theorem exists_of_mapOfJson? {α : Type} {decode : Json → Option α} {json : Json} {m : SortedMap α}
    (h : mapOfJson? decode json = some m) {item : String × α} (hitem : item ∈ m.items) :
    ∃ value, decode value = some item.2 := by
  cases json with
  | object members =>
    obtain ⟨items, hitems, h⟩ := Option.bind_eq_some_iff.1 h
    rw [Option.pure_def, Option.some.injEq] at h
    subst h
    rcases mem_items_foldl_insert hitem with hitem | hitem
    · obtain ⟨member, -, h⟩ := exists_mem_of_mem_mapM hitems hitem
      obtain ⟨value, hvalue, h⟩ := Option.bind_eq_some_iff.1 h
      rw [Option.pure_def, Option.some.injEq] at h
      exact ⟨member.2, by rw [hvalue, ← h]⟩
    · cases hitem
  | _ => cases h

/-- What a file holds has each key once, and times of 64 bits. -/
theorem orderly_of_saved? {keys : Codec κ} {values : Codec ν} {text : String} {saved : Saved κ ν}
    (h : saved? keys values text = some saved) :
    (saved.entries.map Prod.fst).Nodup ∧
      ∀ item ∈ saved.times.items, item.2 < 18446744073709551616 := by
  obtain ⟨json, -, h⟩ := Option.bind_eq_some_iff.1 h
  split at h
  · cases h
  obtain ⟨found, -, h⟩ := Option.bind_eq_some_iff.1 h
  obtain ⟨settings, -, h⟩ := Option.bind_eq_some_iff.1 h
  obtain ⟨items, -, h⟩ := Option.bind_eq_some_iff.1 h
  obtain ⟨entries, -, h⟩ := Option.bind_eq_some_iff.1 h
  obtain ⟨times, htimes, h⟩ := Option.bind_eq_some_iff.1 h
  obtain ⟨hashes, -, h⟩ := Option.bind_eq_some_iff.1 h
  split at h
  · rw [Option.some.injEq] at h
    subst h
    refine ⟨nodup_foldl_setEntry List.nodup_nil, fun item hitem => ?_⟩
    obtain ⟨field, -, htimes⟩ := Option.bind_eq_some_iff.1 htimes
    obtain ⟨value, -, htimes⟩ := Option.bind_eq_some_iff.1 htimes
    obtain ⟨time, htime⟩ := exists_of_mapOfJson? htimes hitem
    exact lt_of_time? htime
  · cases h

/-! ## Caches and their files -/

variable {keys : Codec κ} {values : Codec ν}

/-- The file of a cache gives back its settings, its stamps and its entries; or it gives back nothing,
for a cache that has no entries or is nested too deep for the reader. -/
def Backed (keys : Codec κ) (values : Codec ν) (files : FileStore) (c : PersistentCache κ ν) : Prop :=
  (∃ text saved, files.read c.path = .ok text ∧ saved? keys values text = some saved ∧
    saved.settings = c.settings ∧ saved.hashes = c.hashes ∧
    ∀ key, saved.entries.lookup key = c.get? key) ∨
  (∀ text, files.read c.path = .ok text → saved? keys values text = none) ∧
    (c.entries = [] ∨ Json.maxDepth < (c.toJson keys values).depth)

/-- The sources are different files, no key occurs twice, times have 64 bits, and the file gives back
the cache unless something is unsaved. -/
structure Orderly (keys : Codec κ) (values : Codec ν) (files : FileStore)
    (c : PersistentCache κ ν) : Prop where
  sources : (c.sources.map files.target).Nodup
  entries : (c.entries.map Prod.fst).Nodup
  times : ∀ item ∈ c.times.items, item.2 < 18446744073709551616
  backed : c.unsaved = false → c.Backed keys values files

/-- The cache's file, as far as it can be read, is the same. -/
def SameFile (path : Path) (files files' : FileStore) : Prop :=
  files'.workDir = files.workDir ∧ ∀ text, files'.read path = .ok text ↔ files.read path = .ok text

theorem Backed.congr (h : c.Backed keys values files) (hsame : SameFile c.path files files') :
    c.Backed keys values files' := by
  rcases h with ⟨text, saved, hread, hback⟩ | ⟨hnone, hlost⟩
  · exact .inl ⟨text, saved, (hsame.2 text).2 hread, hback⟩
  · exact .inr ⟨fun text hread => hnone text ((hsame.2 text).1 hread), hlost⟩

theorem Orderly.congr (h : c.Orderly keys values files) (hsame : SameFile c.path files files') :
    c.Orderly keys values files' := by
  refine ⟨?_, h.entries, h.times, fun hsaved => (h.backed hsaved).congr hsame⟩
  rw [FileStore.target_congr hsame.1]
  exact h.sources

theorem Orderly.insert (h : c.Orderly keys values files) (key : κ) (value : ν) :
    (c.insert key value).Orderly keys values files :=
  ⟨h.sources, nodup_setEntry h.entries, h.times, nofun⟩

/-! ### Validating and clearing -/

theorem Orderly.revalidate (h : c.Orderly keys values files) {dropped : Bool}
    (hresult : c.revalidate files = (.ok dropped, c')) : c'.Orderly keys values files := by
  have hbacked : c'.unsaved = false → c'.Backed keys values files := by
    intro hsaved
    obtain rfl := eq_of_revalidate hresult hsaved
    exact h.backed hsaved
  obtain ⟨⟨-, hsources, -⟩, hkept | hevicted⟩ := revalidate_eq_ok hresult
  · obtain ⟨hentries, -, -, -, htimes⟩ := hkept
    refine ⟨hsources ▸ h.sources, hentries ▸ h.entries, fun item hitem => ?_, hbacked⟩
    rcases htimes item hitem with hitem | ⟨p, heq⟩
    · exact h.times item hitem
    · rw [heq]
      exact files.modified_lt p
  · obtain ⟨hentries, hstamped⟩ := hevicted
    exact ⟨hsources ▸ h.sources, hentries ▸ List.nodup_nil, hstamped.times_lt, hbacked⟩

theorem Orderly.clear (hdir : FileStore.IsProper files.workDir) (h : c.Orderly keys values files)
    (hresult : c.clear files = (.ok (), c')) :
    c'.Orderly keys values files ∧ c'.Tallies files := by
  obtain ⟨⟨-, hsources, -⟩, hentries, hstamped⟩ := clear_eq_ok hresult
  have hunsaved : c'.unsaved = true := (restamp_spec hresult).2.2.2
  have hnodup : (c'.sources.map files.target).Nodup := hsources ▸ h.sources
  constructor
  · refine ⟨hnodup, hentries ▸ List.nodup_nil, hstamped.times_lt, fun hsaved => ?_⟩
    rw [hunsaved] at hsaved
    cases hsaved
  · exact tallies_of_sameSources hdir hnodup
      (sameSources_of_restamp (c := { c with entries := [], unsaved := true }) hdir h.sources hresult)

/-! ### Saving -/

/-- A file that holds a cache gives it back, unless it is nested too deep. -/
theorem Orderly.backed_of_read (hkeys : keys.Faithful) (hvalues : values.Faithful)
    (h : c.Orderly keys values files)
    (hread : files'.read c.path = .ok (c.toJson keys values).write) :
    c.Backed keys values files' := by
  have hsaved := saved?_write hkeys hvalues h.times
  by_cases hdepth : (c.toJson keys values).depth ≤ Json.maxDepth
  · rw [if_pos hdepth] at hsaved
    refine .inl ⟨_, _, hread, hsaved, rfl, rfl, fun key => ?_⟩
    rw [lookup_foldl_setEntry h.entries, List.lookup_nil, Option.or_none]
    rfl
  · rw [if_neg hdepth] at hsaved
    refine .inr ⟨fun text htext => ?_, .inr (Nat.not_le.1 hdepth)⟩
    rw [hread, Except.ok.injEq] at htext
    rw [← htext]
    exact hsaved

/-- A cache is in order after it was to be saved; and if that succeeded, its file gives it back. -/
theorem Orderly.save (hkeys : keys.Faithful) (hvalues : values.Faithful)
    (h : c.Orderly keys values files) :
    (c.save keys values files).2.2.Orderly keys values (c.save keys values files).2.1 ∧
      ((c.save keys values files).1 = .ok () → c.Backed keys values (c.save keys values files).2.1) := by
  have hdir := (c.puts_save keys values files).1.workDir
  have hsources : (c.sources.map (c.save keys values files).2.1.target).Nodup := by
    rw [FileStore.target_congr hdir]
    exact h.sources
  rcases c.save_cases keys values files with ⟨hsave, hunsaved⟩ | ⟨e, left, hsave, hunsaved, -⟩ |
    ⟨left, hsave, hread, -⟩
  · rw [hsave]
    exact ⟨h, fun _ => h.backed hunsaved⟩
  · rw [hsave] at hsources ⊢
    refine ⟨⟨hsources, h.entries, h.times, fun hsaved => ?_⟩, nofun⟩
    rw [hunsaved] at hsaved
    cases hsaved
  · rw [hsave] at hsources ⊢
    have hback := h.backed_of_read hkeys hvalues hread
    exact ⟨⟨hsources, h.entries, h.times, fun _ => hback⟩, fun _ => hback⟩

/-! ### Opening -/

/-- A cache without entries and stamps is in order if its file gives back nothing, or if it is to be
saved. -/
theorem orderly_blank {path : Path} {sources : List Path}
    (hnodup : (sources.map files.target).Nodup) (settings : String) {unsaved : Bool}
    (hnone : unsaved = false → ∀ text, files.read path = .ok text → saved? keys values text = none) :
    (⟨path, sources, settings, [], .empty, .empty, unsaved⟩ : PersistentCache κ ν).Orderly keys values
      files :=
  ⟨hnodup, List.nodup_nil, List.forall_mem_nil _, fun hsaved => .inr ⟨hnone hsaved, .inl rfl⟩⟩

theorem orderly_ofFile (keys : Codec κ) (values : Codec ν) {path : Path} {sources : List Path}
    (hnodup : (sources.map files.target).Nodup) (settings : String) :
    (ofFile keys values files path sources settings).Orderly keys values files := by
  rw [ofFile]
  split
  · next fault hread => exact orderly_blank hnodup settings (by simp [hread])
  · next text hread =>
    split
    · next hnone => exact orderly_blank hnodup settings (by simp [hread, hnone])
    · next saved hsaved =>
      split
      · next hsettings =>
        obtain ⟨hentries, htimes⟩ := orderly_of_saved? hsaved
        exact ⟨hnodup, hentries, htimes,
          fun _ => .inl ⟨text, saved, hread, hsaved, hsettings, rfl, fun _ => rfl⟩⟩
      · exact orderly_blank hnodup settings (by simp)

theorem orderly_load (hdir : FileStore.IsProper files.workDir) (keys : Codec κ) (values : Codec ν)
    {path : Path} {sources : List Path} (hnodup : (sources.map files.target).Nodup)
    (hread : ∀ p ∈ sources, ∃ hash, files.checksum p = .ok hash) (settings : String) :
    (load keys values files path sources settings).path = path ∧
      (load keys values files path sources settings).Orderly keys values files ∧
      (load keys values files path sources settings).Tallies files := by
  have horderly : (ofFile keys values files path sources settings).Orderly keys values files :=
    orderly_ofFile keys values hnodup settings
  obtain ⟨hpath, hsources, -⟩ := alike_ofFile keys values files path sources settings
  obtain ⟨dropped, c, hresult⟩ := exists_revalidate_eq_ok (hsources.symm ▸ hread)
  rw [load_eq hresult]
  have hc := horderly.revalidate hresult
  exact ⟨(revalidate_eq_ok hresult).1.1.trans hpath, hc,
    tallies_of_sameSources hdir hc.sources (sameSources_of_revalidate hdir horderly.sources hresult)⟩

theorem entries_load_of_nil {path : Path} {sources : List Path} {settings : String}
    (h : (ofFile keys values files path sources settings).entries = []) :
    (load keys values files path sources settings).entries = [] := by
  have hdecided := decided_load keys values files path sources settings
  by_cases hpasses : (ofFile keys values files path sources settings).Passes files
  · rw [(hdecided.kept hpasses).1, h]
  · exact hdecided.evicted hpasses

/-- A stamp is that of a source: a missing source is stamped under its path as written, any other one
under the path without detours to where it lies. -/
structure IsStampOf (files : FileStore) (p : Path) (stamp : String × String) : Prop where
  missing : stamp.2 = FileStore.missingChecksum → stamp.1 = p.text
  present : stamp.2 ≠ FileStore.missingChecksum →
    stamp.1 = (FileStore.absolute (files.target p)).text

theorem sourceKey_of_missing (h : files.read p = .error .notFound) :
    sourceKey files p = p.text := by
  rw [sourceKey, FileStore.canonical]
  cases hfind : files.find p with
  | error fault => rfl
  | ok found =>
    obtain ⟨l, n⟩ := found
    rw [FileStore.read, hfind] at h
    cases n <;> cases h

/-- A source with the checksum of its stamp is known under the key of its stamp. -/
theorem IsStampOf.eq_sourceKey {stamp : String × String} (h : IsStampOf files p stamp)
    (hsum : files.checksum p = .ok stamp.2) : stamp.1 = sourceKey files p := by
  rcases FileStore.checksum_eq_ok_iff.1 hsum with ⟨text, hread, hhash⟩ | ⟨hread, hhash⟩
  · have hpresent : stamp.2 ≠ FileStore.missingChecksum := by
      rw [hhash]
      exact FileStore.sha256_ne_missingChecksum _
    rw [h.present hpresent, sourceKey_of_read hread]
    rfl
  · rw [h.missing hhash, sourceKey_of_missing hread]

/-- Sources that have the checksums they were stamped with get back what was saved. -/
theorem Backed.get?_load (hc : c.Backed keys values files) (htallies : c.Tallies files)
    (hdepth : (c.toJson keys values).depth ≤ Json.maxDepth) {sources : List Path}
    (hlength : sources.length = c.sources.length)
    (hstamps : ∀ p ∈ sources, ∃ stamp ∈ c.hashes.items,
      IsStampOf files p stamp ∧ files.checksum p = .ok stamp.2) (key : κ) :
    (load keys values files c.path sources c.settings).get? key = c.get? key := by
  rcases hc with ⟨text, saved, hread, hsaved, hsettings, hhashes, hlookup⟩ | ⟨hnone, hlost⟩
  · have hfile : ofFile keys values files c.path sources c.settings = _ :=
      ofFile_of_saved? hread hsaved hsettings
    -- times play no part: a cache that passes by its checksums passes
    have hcurrent : ∀ p ∈ sources,
        (ofFile keys values files c.path sources c.settings).Current files p := by
      intro p hp
      obtain ⟨stamp, hstamp, hof, hsum⟩ := hstamps p hp
      refine ⟨stamp.2, hsum, ?_⟩
      rw [hfile, ← hof.eq_sourceKey hsum, hhashes]
      exact SortedMap.get?_of_mem_items hstamp
    have hpasses : (ofFile keys values files c.path sources c.settings).PassesByHashes files := by
      rw [hfile] at hcurrent ⊢
      refine ⟨sameSources_iff.2 ⟨?_, fun p hp => ?_⟩, hcurrent⟩
      · rw [hlength, hhashes, htallies.size]
      · obtain ⟨hash, -, hhash⟩ := hcurrent p hp
        rw [SortedMap.contains, hhash]
        rfl
    have hkept := ((decided_load keys values files c.path sources c.settings).kept
      hpasses.passes).1
    rw [get?, hkept, hfile, hlookup]
  · -- nothing can be read, and nothing was there to be saved
    have hfile : (ofFile keys values files c.path sources c.settings).entries = [] := by
      rcases ofFile_cases keys values files c.path sources c.settings with
        ⟨unsaved, hblank⟩ | ⟨text, saved, hread, hsaved, -⟩
      · rw [hblank]
      · rw [hnone text hread] at hsaved
        cases hsaved
    rw [get?, get?, entries_load_of_nil hfile, hlost.resolve_right (Nat.not_lt.2 hdepth)]

/-- Other settings or other sources get back nothing. -/
theorem Backed.entries_load (hdir : FileStore.IsProper files.workDir)
    (hc : c.Backed keys values files) (htallies : c.Tallies files) {sources : List Path}
    (hnodup : (sources.map files.target).Nodup) {settings : String}
    (h : settings ≠ c.settings ∨
      ¬ (sources.map files.target).Perm (c.sources.map files.target)) :
    (load keys values files c.path sources settings).entries = [] := by
  rcases ofFile_cases keys values files c.path sources settings with
    ⟨unsaved, hblank⟩ | ⟨text, saved, hread, hsaved, hsettings, hfile⟩
  · exact entries_load_of_nil (by rw [hblank])
  rcases hc with ⟨text', saved', hread', hsaved', hsettings', hhashes, -⟩ | ⟨hnone, -⟩
  · -- there is only one file to be read
    rw [hread', Except.ok.injEq] at hread
    subst hread
    rw [hsaved', Option.some.injEq] at hsaved
    subst hsaved
    refine (decided_load keys values files c.path sources settings).evicted fun hpasses => ?_
    rcases h with hother | hother
    · exact hother (hsettings.symm.trans hsettings')
    · rw [hfile] at hpasses
      exact hother (htallies.perm_of_sameSources hdir hpasses.1 hhashes hnodup)
  · rw [hnone text hread] at hsaved
    cases hsaved

end

end PersistentCache

/-! ## Histories -/

/-- A cache, when one is open, and the files around it. -/
structure Holding (κ ν : Type) where
  files : FileStore
  open? : Option (PersistentCache κ ν)

namespace Holding

variable {κ ν : Type} [DecidableEq κ] {keys : Codec κ} {values : Codec ν} {path : Path}
  {s t : Holding κ ν} {c : PersistentCache κ ν}

/-- What can happen to a cache that is kept at a path. It is opened with different files as its
sources, each of them readable or missing; an edit may change anything but the cache's own file. -/
inductive Step (keys : Codec κ) (values : Codec ν) (path : Path) :
    Holding κ ν → Holding κ ν → Prop
  | load (files : FileStore) (sources : List Path) (settings : String)
      (hnodup : (sources.map files.target).Nodup)
      (hread : ∀ p ∈ sources, ∃ hash, files.checksum p = .ok hash) :
      Step keys values path ⟨files, none⟩
        ⟨files, some (.load keys values files path sources settings)⟩
  | insert (files : FileStore) (c : PersistentCache κ ν) (key : κ) (value : ν) :
      Step keys values path ⟨files, some c⟩ ⟨files, some (c.insert key value)⟩
  | clear (files : FileStore) (c : PersistentCache κ ν)
      (hread : ∀ p ∈ c.sources, ∃ hash, files.checksum p = .ok hash) :
      Step keys values path ⟨files, some c⟩ ⟨files, some (c.clear files).2⟩
  | revalidate (files : FileStore) (c : PersistentCache κ ν)
      (hread : ∀ p ∈ c.sources, ∃ hash, files.checksum p = .ok hash) :
      Step keys values path ⟨files, some c⟩ ⟨files, some (c.revalidate files).2⟩
  | save (files : FileStore) (c : PersistentCache κ ν) :
      Step keys values path ⟨files, some c⟩
        ⟨(c.save keys values files).2.1, some (c.save keys values files).2.2⟩
  | drop (files : FileStore) (c : PersistentCache κ ν) :
      Step keys values path ⟨files, some c⟩ ⟨c.close keys values files, none⟩
  | edit (files files' : FileStore) (open? : Option (PersistentCache κ ν))
      (hsame : PersistentCache.SameFile path files files') :
      Step keys values path ⟨files, open?⟩ ⟨files', open?⟩

/-- What a history leads to that begins with any files and no open cache. The names of the working
directory are those of a path without detours. -/
inductive Reached (keys : Codec κ) (values : Codec ν) (path : Path) : Holding κ ν → Prop
  | start (files : FileStore) (hdir : FileStore.IsProper files.workDir) :
      Reached keys values path ⟨files, none⟩
  | step {s t : Holding κ ν} (hs : Reached keys values path s) (hst : Step keys values path s t) :
      Reached keys values path t

/-- An open cache is in order, and its stamps are those of its sources. -/
structure Upheld (keys : Codec κ) (values : Codec ν) (path : Path) (s : Holding κ ν) : Prop where
  workDir : FileStore.IsProper s.files.workDir
  openCache : ∀ c, s.open? = some c →
    c.path = path ∧ c.Orderly keys values s.files ∧ c.Tallies s.files

theorem upheld_some (hdir : FileStore.IsProper s.files.workDir) (hs : s.open? = some c)
    (hc : c.path = path ∧ c.Orderly keys values s.files ∧ c.Tallies s.files) :
    s.Upheld keys values path := by
  refine ⟨hdir, fun c' hc' => ?_⟩
  rw [hs, Option.some.injEq] at hc'
  subst hc'
  exact hc

theorem Upheld.step (hkeys : keys.Faithful) (hvalues : values.Faithful)
    (hs : s.Upheld keys values path) (hst : Step keys values path s t) :
    t.Upheld keys values path := by
  obtain ⟨hdir, hopen⟩ := hs
  cases hst with
  | load files sources settings hnodup hread =>
    exact upheld_some hdir rfl (PersistentCache.orderly_load hdir keys values hnodup hread settings)
  | insert files c key value =>
    obtain ⟨hpath, horderly, htallies⟩ := hopen c rfl
    exact upheld_some hdir rfl ⟨hpath, horderly.insert key value, htallies.size, htallies.sources⟩
  | clear files c hread =>
    obtain ⟨hpath, horderly, htallies⟩ := hopen c rfl
    obtain ⟨c', hresult⟩ := PersistentCache.exists_clear_eq_ok hread
    have hc' := horderly.clear hdir hresult
    rw [hresult]
    exact upheld_some hdir rfl ⟨(PersistentCache.clear_eq_ok hresult).1.1.trans hpath, hc'⟩
  | revalidate files c hread =>
    obtain ⟨hpath, horderly, htallies⟩ := hopen c rfl
    obtain ⟨dropped, c', hresult⟩ := PersistentCache.exists_revalidate_eq_ok hread
    have hc' := horderly.revalidate hresult
    rw [hresult]
    exact upheld_some hdir rfl ⟨(PersistentCache.revalidate_eq_ok hresult).1.1.trans hpath, hc',
      PersistentCache.tallies_of_sameSources hdir hc'.sources
        (PersistentCache.sameSources_of_revalidate hdir horderly.sources hresult)⟩
  | save files c =>
    obtain ⟨hpath, horderly, htallies⟩ := hopen c rfl
    obtain ⟨hputs, unsaved, hc'⟩ := c.puts_save keys values files
    have hsaved := (horderly.save hkeys hvalues).1
    rw [hc'] at hsaved ⊢
    refine upheld_some (by rw [hputs.workDir]; exact hdir) rfl ⟨hpath, hsaved, ?_⟩
    have htallies' := htallies.congr hputs.workDir
    exact ⟨htallies'.size, htallies'.sources⟩
  | drop files c =>
    refine ⟨?_, nofun⟩
    rw [PersistentCache.close, (c.puts_save keys values files).1.workDir]
    exact hdir
  | edit files files' open? hsame =>
    refine ⟨by rw [hsame.1]; exact hdir, fun c hc => ?_⟩
    obtain ⟨hpath, horderly, htallies⟩ := hopen c hc
    exact ⟨hpath, horderly.congr (hpath ▸ hsame), htallies.congr hsame.1⟩

theorem upheld_of_reached (hkeys : keys.Faithful) (hvalues : values.Faithful)
    (hs : s.Reached keys values path) : s.Upheld keys values path := by
  induction hs with
  | start files hdir => exact ⟨hdir, nofun⟩
  | step _ hst ih => exact ih.step hkeys hvalues hst

/-- A cache that was saved with success is backed, whatever else is edited. -/
theorem backed_of_saved (hkeys : keys.Faithful) (hvalues : values.Faithful)
    (hs : s.Reached keys values path) (hc : s.open? = some c)
    (hsave : (c.save keys values s.files).1 = .ok ()) {files : FileStore}
    (hsame : PersistentCache.SameFile path (c.close keys values s.files) files) :
    FileStore.IsProper files.workDir ∧ c.path = path ∧ c.Backed keys values files ∧
      c.Tallies files := by
  obtain ⟨hdir, hopen⟩ := upheld_of_reached hkeys hvalues hs
  obtain ⟨rfl, horderly, htallies⟩ := hopen c hc
  have hworkDir : files.workDir = s.files.workDir :=
    hsame.1.trans (c.puts_save keys values s.files).1.workDir
  refine ⟨by rw [hworkDir]; exact hdir, rfl, ?_, htallies.congr hworkDir⟩
  exact ((horderly.save hkeys hvalues).2 hsave).congr hsame

/-- Saved entries come back. After any history, let the cache be saved, or dropped, with success, and
its file be kept whatever else is edited. Who opens it with the same settings and the same sources, each
with the checksum that it was stamped with, has the same entries; who opens it with other settings or
other sources has none. What is nested too deep for the reader is not read back. -/
theorem saved_entries_come_back (hkeys : keys.Faithful) (hvalues : values.Faithful)
    (hs : s.Reached keys values path) (hc : s.open? = some c)
    (hsave : (c.save keys values s.files).1 = .ok ()) {files : FileStore}
    (hsame : PersistentCache.SameFile path (c.close keys values s.files) files)
    {sources : List Path} (hnodup : (sources.map files.target).Nodup) :
    ((c.toJson keys values).depth ≤ Json.maxDepth →
      (sources.map files.target).Perm (c.sources.map files.target) →
      (∀ p ∈ sources, ∃ stamp ∈ c.hashes.items,
        PersistentCache.IsStampOf files p stamp ∧ files.checksum p = .ok stamp.2) →
      ∀ key, (PersistentCache.load keys values files path sources c.settings).get? key =
        c.get? key) ∧
    (∀ settings, settings ≠ c.settings ∨
        ¬ (sources.map files.target).Perm (c.sources.map files.target) →
      (PersistentCache.load keys values files path sources settings).entries = []) ∧
    Query.codec.Faithful ∧ Evolved.codec.Faithful ∧ TraceLine.codec.Faithful := by
  obtain ⟨hdir, rfl, hbacked, htallies⟩ := backed_of_saved hkeys hvalues hs hc hsave hsame
  refine ⟨fun hdepth hperm hstamps => ?_, fun settings hother => ?_, Query.codec_faithful,
    Evolved.codec_faithful, TraceLine.codec_faithful⟩
  · refine hbacked.get?_load htallies hdepth ?_ hstamps
    simpa using hperm.length_eq
  · exact hbacked.entries_load hdir htallies hnodup hother

/-! ### A source that is written differently -/

/-- A cache with one entry. -/
def filled : PersistentCache Query Evolved :=
  (PersistentCache.load Query.codec Evolved.codec voicingFiles ⟨"cache"⟩ [⟨"changes.lsc"⟩] "").insert
    (.leaf "ata" none none) ⟨"ata", "ada", "ada"⟩

theorem read_voicingFiles_respelled : voicingFiles.read ⟨"./changes.lsc"⟩ = .ok voicingText := by
  decide

theorem reached_filled :
    Reached Query.codec Evolved.codec ⟨"cache"⟩ ⟨voicingFiles, some filled⟩ := by
  have hdir : FileStore.IsProper voicingFiles.workDir := by
    intro name hname
    rw [List.mem_singleton.1 hname]
    exact ⟨by decide, by decide, by decide⟩
  have hread : voicingFiles.read ⟨"changes.lsc"⟩ = .ok voicingText := by decide
  refine ((Reached.start voicingFiles hdir).step (.load voicingFiles [⟨"changes.lsc"⟩] ""
    (List.nodup_singleton _) ?_)).step (.insert voicingFiles _ _ _)
  exact List.forall_mem_singleton.2 ⟨_, FileStore.checksum_eq hread⟩

theorem filled_eq :
    filled = ⟨⟨"cache"⟩, [⟨"changes.lsc"⟩], "", [(.leaf "ata" none none, ⟨"ata", "ada", "ada"⟩)],
      SortedMap.empty.insert "/work/changes.lsc" 0,
      SortedMap.empty.insert "/work/changes.lsc" (textDigest voicingText), true⟩ :=
  rfl

theorem depth_filled : (filled.toJson Query.codec Evolved.codec).depth ≤ Json.maxDepth := by
  have hentry : (Query.codec.encode (.leaf "ata" none none)).depth = 1 :=
    Query.depth_toJson_leaf _ _ _
  rw [filled_eq]
  simp [PersistentCache.toJson, PersistentCache.mapToJson, Json.depth, Json.depthOfMembers,
    Json.depthOfItems, hentry, Evolved.codec, Evolved.toJson, SortedMap.insert, SortedMap.empty,
    insertSorted, Json.maxDepth]

/-- The entry is found under another spelling of the source, and not under other settings. -/
theorem saved_entries_come_back_respelled :
    (PersistentCache.load Query.codec Evolved.codec
      (filled.close Query.codec Evolved.codec voicingFiles) ⟨"cache"⟩ [⟨"./changes.lsc"⟩] "").get?
        (.leaf "ata" none none) = some ⟨"ata", "ada", "ada"⟩ ∧
    (PersistentCache.load Query.codec Evolved.codec
      (filled.close Query.codec Evolved.codec voicingFiles) ⟨"cache"⟩ [⟨"./changes.lsc"⟩]
        "syllables").entries = [] := by
  have hputs := (filled.puts_save Query.codec Evolved.codec voicingFiles).1
  have htarget : (filled.close Query.codec Evolved.codec voicingFiles).target =
      voicingFiles.target := FileStore.target_congr hputs.workDir
  have hnodup : ([⟨"./changes.lsc"⟩].map
      (filled.close Query.codec Evolved.codec voicingFiles).target).Nodup :=
    List.nodup_singleton _
  obtain ⟨hsame, hother, -⟩ := saved_entries_come_back Query.codec_faithful Evolved.codec_faithful
    reached_filled rfl (by rfl) ⟨rfl, fun _ => .rfl⟩ hnodup
  constructor
  · refine hsame depth_filled ?_ ?_ _
    · rw [htarget]
      decide
    · have hread := hputs.read_eq read_voicingFiles_respelled (by decide)
      refine List.forall_mem_singleton.2
        ⟨("/work/changes.lsc", textDigest voicingText), List.mem_singleton.2 rfl,
          ⟨fun hmissing => ?_, fun _ => ?_⟩, FileStore.checksum_eq hread⟩
      · exact absurd hmissing (FileStore.sha256_ne_missingChecksum _)
      · rw [htarget]
        decide
  · exact hother "syllables" (.inl (by decide))

end Holding

end Etymon
