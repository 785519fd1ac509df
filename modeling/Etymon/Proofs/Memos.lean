import Etymon.Proofs.Histories

/-!
# Fresh values

A value is computed from files, and stamped with the checksums that these have when the computation has
ended. As long as the stamps are those of the files, the value is told without being computed again.
Nothing that happens to the files after the stamps were taken is missed. What happens between a file
being read and its stamp being taken is: the value is as good as what the computation would have given
on the stamped files.

## Main definitions

* `Recipe`: what a computation makes of the files that it reads.
* `Recipe.Honest`: the reported files determine the outcome.
* `Watch`: a cached value, what it was computed from, and the state with the files.
* `Watch.Reached`: what a history of calls, edits and invalidations leads to.
* `Watch.Answers`: a call tells a value without computing it.

## Main results

* `Watch.upheld_of_reached`: stamps are those of the files at the end of the computation.
* `Watch.answers_as_stamped`: when a value that is told is the present one.
-/

namespace Etymon

/-! ## Checksums -/

namespace FileStore

variable {s t : FileStore} {p : Path} {texts : Set String} {hash : String}

/-- Every readable file has one of the texts. -/
def Holds (texts : Set String) (s : FileStore) : Prop :=
  ∀ p text, s.read p = .ok text → text ∈ texts

theorem holds_of_nodes (h : ∀ l f, (l, .file f) ∈ s.nodes → f.text ∈ texts) : s.Holds texts := by
  intro p text hread
  obtain ⟨f, hfind, rfl⟩ := exists_find_of_read hread
  exact h _ f (mem_nodes_of_file (find_eq_ok_iff.1 hfind).2)

/-- Files with the same checksum are the same, or both missing. -/
theorem read_eq_of_checksum_eq (hdigest : Set.InjOn textDigest texts) (hs : s.Holds texts)
    (ht : t.Holds texts) (h : s.checksum p = .ok hash) (h' : t.checksum p = .ok hash) :
    s.read p = t.read p := by
  rcases checksum_eq_ok_iff.1 h with ⟨text, hread, rfl⟩ | ⟨hread, rfl⟩ <;>
    rcases checksum_eq_ok_iff.1 h' with ⟨text', hread', hsum⟩ | ⟨hread', hsum⟩
  · rw [hread, hread', hdigest (hs _ _ hread) (ht _ _ hread') hsum]
  · exact absurd hsum (sha256_ne_missingChecksum _)
  · exact absurd hsum.symm (sha256_ne_missingChecksum _)
  · rw [hread, hread']

end FileStore

/-! ## Stamps -/

def Memo.paths {α : Type} (memo : Memo α) : List Path :=
  memo.stamps.map Prod.fst

namespace PathCache

variable {σ α : Type} {files : FileStore} {stamps : List (Path × String)} {paths : List Path}

theorem unchanged_eq_true_iff : unchanged files stamps = .ok true ↔
    ∀ stamp ∈ stamps, files.checksum stamp.1 = .ok stamp.2 := by
  induction stamps with
  | nil => simp [unchanged]
  | cons stamp rest ih =>
    rw [unchanged, bind_eq_ok_iff, List.forall_mem_cons, ← ih]
    constructor
    · rintro ⟨hash, hsum, h⟩
      split at h
      · next heq => exact ⟨heq ▸ hsum, h⟩
      · cases h
    · rintro ⟨hsum, h⟩
      exact ⟨stamp.2, hsum, by rw [if_pos rfl]; exact h⟩

theorem stamp_eq_ok (h : stamp files paths = .ok stamps) :
    stamps.map Prod.fst = paths ∧ ∀ stamp ∈ stamps, files.checksum stamp.1 = .ok stamp.2 := by
  have hstamps := mapM_eq_ok_iff.1 h
  clear h
  induction hstamps with
  | nil => exact ⟨rfl, List.forall_mem_nil _⟩
  | cons hfirst _ ih =>
    obtain ⟨hash, hsum, hstamp⟩ := bind_eq_ok_iff.1 hfirst
    simp only [pure, Except.pure, Except.ok.injEq] at hstamp
    subst hstamp
    exact ⟨by rw [List.map_cons, ih.1], List.forall_mem_cons.2 ⟨hsum, ih.2⟩⟩

variable {cache cache' : PathCache α} {applies : List (Path × String) → Bool} {value : α}

theorem valid?_eq_some (h : cache.valid? files applies = .ok (some value)) :
    ∃ memo, cache = some memo ∧ memo.value = value ∧ unchanged files memo.stamps = .ok true := by
  cases cache with
  | none => cases h
  | some memo =>
    rw [valid?] at h
    split at h
    · obtain ⟨same, hsame, h⟩ := bind_eq_ok_iff.1 h
      cases same with
      | false => cases h
      | true =>
        simp only [if_pos, pure, Except.pure, Except.ok.injEq, Option.some.injEq] at h
        exact ⟨memo, rfl, h, hsame⟩
    · cases h

/-- A value is told as it is kept, or computed and then stamped. -/
theorem result_getWith_eq_ok {files : σ → FileStore} {compute : Action σ (α × List Path)} {s t : σ}
    (h : (cache.getWith files applies compute).result s = (.ok (value, cache'), t)) :
    cache.valid? (files s) applies = .ok (some value) ∧ cache' = cache ∧ t = s ∨
    cache.valid? (files s) applies = .ok none ∧ ∃ paths stamps,
      compute.result s = (.ok (value, paths), t) ∧ stamp (files t) paths = .ok stamps ∧
        cache' = some ⟨stamps, value⟩ := by
  rw [getWith, Action.result_bind_get, Action.result_bind_eq_ok_iff] at h
  obtain ⟨found, u, hfound, h⟩ := h
  obtain ⟨hvalid, rfl⟩ := Action.result_ofExcept_eq_ok_iff.1 hfound
  cases found with
  | some kept =>
    rw [Action.result_pure, Prod.mk.injEq, Except.ok.injEq, Prod.mk.injEq] at h
    obtain ⟨⟨rfl, rfl⟩, rfl⟩ := h
    exact .inl ⟨hvalid, rfl, rfl⟩
  | none =>
    refine .inr ⟨hvalid, ?_⟩
    obtain ⟨⟨computed, paths⟩, u, hcompute, h⟩ := Action.result_bind_eq_ok_iff.1 h
    rw [Action.result_bind_get, Action.result_bind_eq_ok_iff] at h
    obtain ⟨stamps, u', hstamps, h⟩ := h
    obtain ⟨hstamps, rfl⟩ := Action.result_ofExcept_eq_ok_iff.1 hstamps
    rw [Action.result_pure, Prod.mk.injEq, Except.ok.injEq, Prod.mk.injEq] at h
    obtain ⟨⟨rfl, rfl⟩, rfl⟩ := h
    exact ⟨paths, stamps, hcompute, hstamps, rfl⟩

/-- Only the computation changes the state. -/
theorem state_getWith (files : σ → FileStore) (applies : List (Path × String) → Bool)
    (compute : Action σ (α × List Path)) (cache : PathCache α) (s : σ) :
    ((cache.getWith files applies compute).result s).2 = s ∨
      ((cache.getWith files applies compute).result s).2 = (compute.result s).2 := by
  rw [getWith, Action.result_bind_get, Action.result_bind, Action.result_ofExcept]
  rcases cache.valid? (files s) applies with e | _ | kept
  · exact .inl rfl
  · right
    dsimp only
    rw [Action.result_bind]
    rcases compute.result s with ⟨e | ⟨computed, paths⟩, t⟩
    · rfl
    · dsimp only
      rw [Action.result_bind_get, Action.result_bind, Action.result_ofExcept]
      rcases stamp (files t) paths with e | stamps <;> rfl
  · exact .inl rfl

end PathCache

/-! ## Calls -/

/-- What each path is read as. -/
abbrev View := Path → Except IoFault String

/-- What a computation makes of the files that it reads, with the paths that it reports. -/
def Recipe (α : Type) := View → Except Error (α × List Path)

/-- The reported files determine what is made, and that they are the ones to be reported. -/
def Recipe.Honest {α : Type} (recipe : Recipe α) : Prop :=
  ∀ v w value paths, recipe v = .ok (value, paths) → (∀ p ∈ paths, w p = v p) →
    recipe w = .ok (value, paths)

/-- A call for fixed files, or one whose computation reports them. -/
inductive Call (σ α : Type) where
  | fixed (paths : List Path) (compute : Action σ α)
  | tracked (compute : Action σ (α × List Path))

namespace Call

variable {σ α : Type}

def compute : Call σ α → Action σ (α × List Path)
  | fixed paths compute => do return (← compute, paths)
  | tracked compute => compute

def applies : Call σ α → List (Path × String) → Bool
  | fixed paths _ => PathCache.stampsOf paths
  | tracked _ => fun _ => true

def run (files : σ → FileStore) (cache : PathCache α) : Call σ α → Action σ (α × PathCache α)
  | fixed paths compute => cache.get files paths compute
  | tracked compute => cache.getTracked files compute

theorem run_eq (files : σ → FileStore) (cache : PathCache α) (call : Call σ α) :
    call.run files cache = cache.getWith files call.applies call.compute := by
  cases call <;> rfl

/-- If the computation succeeds, it has made of what it has seen what the recipe says. Nothing is said
of when it has seen which file, nor of the state that it ends in. -/
def Follows (call : Call σ α) (recipe : Recipe α) (seen : View) (s : σ) : Prop :=
  ∀ made, (call.compute.result s).1 = .ok made → recipe seen = .ok made

end Call

/-! ## Histories -/

/-- Where a value comes from: what it was made of, and the files that the stamps were taken of. -/
structure Origin (α : Type) where
  recipe : Recipe α
  seen : View
  taken : FileStore

/-- A cached value, where it comes from, and the state with the files. -/
structure Watch (σ α : Type) where
  state : σ
  cache : PathCache α
  origin : Option (Origin α)

namespace Watch

variable {σ α : Type} {files : σ → FileStore} {texts : Set String} {w w' : Watch σ α}

/-- The watch after a call. A value that was computed comes from what its computation has seen. -/
def after (files : σ → FileStore) (w : Watch σ α) (call : Call σ α) (recipe : Recipe α)
    (seen : View) : Watch σ α :=
  match (call.run files w.cache).result w.state with
  | (.error _, state) => { w with state }
  | (.ok (_, cache), state) =>
    match w.cache.valid? (files w.state) call.applies with
    | .ok (some _) => { w with state, cache }
    | _ => ⟨state, cache, some ⟨recipe, seen, files state⟩⟩

/-- What can happen: any edit, an invalidation, or a call, which may find a value, compute one, or fail.
Files may change while a call computes. All texts that files ever have are among the given ones. -/
inductive Step (files : σ → FileStore) (texts : Set String) : Watch σ α → Watch σ α → Prop
  | edit (w : Watch σ α) (state : σ) (hholds : (files state).Holds texts) :
      Step files texts w { w with state }
  | invalidate (w : Watch σ α) : Step files texts w ⟨w.state, none, none⟩
  | call (w : Watch σ α) (call : Call σ α) (recipe : Recipe α) (seen : View)
      (hfollows : call.Follows recipe seen w.state)
      (hholds : (files (call.compute.result w.state).2).Holds texts) :
      Step files texts w (w.after files call recipe seen)

/-- What a history leads to that begins without a value. -/
inductive Reached (files : σ → FileStore) (texts : Set String) : Watch σ α → Prop
  | start (state : σ) (hholds : (files state).Holds texts) :
      Reached files texts ⟨state, none, none⟩
  | step {w w' : Watch σ α} (hw : Reached files texts w) (hstep : Step files texts w w') :
      Reached files texts w'

/-- The value was made of what was seen, and the stamps are those of the files they were taken of. -/
structure Upheld (files : σ → FileStore) (texts : Set String) (w : Watch σ α) : Prop where
  holds : (files w.state).Holds texts
  origin : ∀ memo, w.cache = some memo → ∃ origin, w.origin = some origin ∧
    origin.taken.Holds texts ∧ origin.recipe origin.seen = .ok (memo.value, memo.paths) ∧
    ∀ stamp ∈ memo.stamps, origin.taken.checksum stamp.1 = .ok stamp.2

theorem Upheld.after (hw : w.Upheld files texts) {call : Call σ α} {recipe : Recipe α} {seen : View}
    (hfollows : call.Follows recipe seen w.state)
    (hholds : (files (call.compute.result w.state).2).Holds texts) :
    (w.after files call recipe seen).Upheld files texts := by
  -- however the call ends, nothing but its computation has changed the files
  have hstate : (files ((call.run files w.cache).result w.state).2).Holds texts := by
    rw [call.run_eq]
    rcases PathCache.state_getWith files call.applies call.compute w.cache w.state with h | h
    · rw [h]
      exact hw.holds
    · rw [h]
      exact hholds
  rw [Watch.after]
  rcases hresult : (call.run files w.cache).result w.state with ⟨e | ⟨value, cache⟩, state⟩
  · rw [hresult] at hstate
    exact ⟨hstate, hw.origin⟩
  · rw [hresult] at hstate
    rw [call.run_eq] at hresult
    rcases PathCache.result_getWith_eq_ok hresult with
      ⟨hvalid, rfl, rfl⟩ | ⟨hvalid, paths, stamps, hcompute, hstamps, rfl⟩
    · simp only [hvalid]
      exact ⟨hstate, hw.origin⟩
    · simp only [hvalid]
      refine ⟨hstate, fun memo hmemo => ⟨_, rfl, hstate, ?_⟩⟩
      obtain ⟨hpaths, hsums⟩ := PathCache.stamp_eq_ok hstamps
      rw [Option.some.injEq] at hmemo
      subst hmemo
      refine ⟨?_, hsums⟩
      rw [Memo.paths, hpaths]
      exact hfollows _ (by rw [hcompute])

theorem upheld_of_reached (hw : w.Reached files texts) : w.Upheld files texts := by
  induction hw with
  | start state hholds => exact ⟨hholds, nofun⟩
  | step _ hstep ih =>
    cases hstep with
    | edit state hholds => exact ⟨hholds, ih.origin⟩
    | invalidate => exact ⟨ih.holds, nofun⟩
    | call call recipe seen hfollows hholds => exact ih.after hfollows hholds

/-! ## Answers -/

/-- A value is told without being computed: some call tells it although its computation would fail. -/
def Answers (files : σ → FileStore) (w : Watch σ α) (value : α) : Prop :=
  ∃ (call : Call σ α) (e : Error) (cache : PathCache α),
    (call.compute.result w.state).1 = .error e ∧
      ((call.run files w.cache).result w.state).1 = .ok (value, cache)

/-- What is told is what is kept, and its stamps are those of the present files. -/
theorem Answers.exists_memo {value : α} (h : w.Answers files value) :
    ∃ memo, w.cache = some memo ∧ memo.value = value ∧
      PathCache.unchanged (files w.state) memo.stamps = .ok true := by
  obtain ⟨call, e, cache, herror, hok⟩ := h
  rw [call.run_eq] at hok
  rcases hresult : (w.cache.getWith files call.applies call.compute).result w.state with
    ⟨outcome, t⟩
  rw [hresult] at hok
  dsimp only at hok
  subst hok
  rcases PathCache.result_getWith_eq_ok hresult with
    ⟨hvalid, -, -⟩ | ⟨-, paths, stamps, hcompute, -⟩
  · exact PathCache.valid?_eq_some hvalid
  · rw [hcompute] at herror
    cases herror

/-- A value is told exactly while the cache is fresh. -/
theorem isFresh_iff : w.cache.isFresh (files w.state) = .ok true ↔ ∃ value, w.Answers files value := by
  constructor
  · intro hfresh
    rcases hcache : w.cache with _ | memo
    · rw [hcache] at hfresh
      cases hfresh
    rw [hcache] at hfresh
    refine ⟨memo.value, .tracked (Action.ofExcept (.error (.engineUnavailable ""))),
      .engineUnavailable "", some memo, rfl, ?_⟩
    have hvalid : PathCache.valid? (files w.state) (fun _ => true) (some memo) =
        .ok (some memo.value) := by
      rw [PathCache.isFresh] at hfresh
      rw [PathCache.valid?, if_pos rfl, hfresh]
      rfl
    rw [hcache, Call.run, PathCache.getTracked, PathCache.getWith, Action.result_bind_get,
      Action.result_bind, Action.result_ofExcept, hvalid]
    rfl
  · rintro ⟨value, h⟩
    obtain ⟨memo, hcache, -, hsame⟩ := h.exists_memo
    rw [hcache]
    exact hsame

/-- A value is told while the files that it depends on are as they were when their stamps were taken,
however they were edited in between. It is then what its computation makes of the present files exactly
if it is what it would have made of the stamped ones; and so it is if these were still as it had read
them. -/
theorem answers_as_stamped (hdigest : Set.InjOn textDigest texts) (hw : w.Reached files texts) :
    (w.cache.isFresh (files w.state) = .ok true ↔ ∃ value, w.Answers files value) ∧
    ∀ value, w.Answers files value → ∃ memo origin, w.cache = some memo ∧ memo.value = value ∧
      w.origin = some origin ∧ origin.recipe origin.seen = .ok (value, memo.paths) ∧
      (∀ p ∈ memo.paths, (files w.state).read p = origin.taken.read p) ∧
      (origin.recipe.Honest →
        (origin.recipe (files w.state).read = .ok (value, memo.paths) ↔
          origin.recipe origin.taken.read = .ok (value, memo.paths)) ∧
        ((∀ p ∈ memo.paths, origin.taken.read p = origin.seen p) →
          origin.recipe (files w.state).read = .ok (value, memo.paths))) := by
  refine ⟨isFresh_iff, fun value h => ?_⟩
  obtain ⟨memo, hcache, rfl, hsame⟩ := h.exists_memo
  obtain ⟨hholds, horigin⟩ := upheld_of_reached hw
  obtain ⟨origin, hsome, htaken, hseen, hsums⟩ := horigin memo hcache
  have hread : ∀ p ∈ memo.paths, (files w.state).read p = origin.taken.read p := by
    intro p hp
    obtain ⟨stamp, hstamp, rfl⟩ := List.mem_map.1 hp
    exact FileStore.read_eq_of_checksum_eq hdigest hholds htaken
      (PathCache.unchanged_eq_true_iff.1 hsame stamp hstamp) (hsums stamp hstamp)
  refine ⟨memo, origin, hcache, rfl, hsome, hseen, hread, fun hhonest => ⟨⟨?_, ?_⟩, ?_⟩⟩
  · intro hpresent
    exact hhonest _ _ _ _ hpresent fun p hp => (hread p hp).symm
  · intro hstamped
    exact hhonest _ _ _ _ hstamped hread
  · intro hstill
    exact hhonest _ _ _ _ hseen fun p hp => (hread p hp).trans (hstill p hp)

/-! ### A file that is created too early -/

/-- What a file holds, or nothing. -/
def contentOf (p : Path) : Recipe String := fun view =>
  match view p with
  | .ok text => .ok (text, [p])
  | .error .notFound => .ok ("", [p])
  | .error fault => .error (.io p fault)

theorem honest_contentOf (p : Path) : (contentOf p).Honest := by
  intro v w value paths hv hsame
  have hpaths : paths = [p] := by
    rw [contentOf] at hv
    split at hv
    all_goals simp_all
  subst hpaths
  rw [contentOf, hsame p (List.mem_singleton_self p)]
  exact hv

def bareFiles : FileStore :=
  .empty ["work"] 0

theorem holds_voicingFiles : voicingFiles.Holds {voicingText} := by
  refine FileStore.holds_of_nodes fun l f hnode => ?_
  simp only [voicingFiles, List.mem_cons, List.not_mem_nil, or_false, Prod.mk.injEq, reduceCtorEq,
    and_false, false_or, Node.file.injEq] at hnode
  rw [hnode.2]
  rfl

/-- The file is read as missing, and is there when the stamps are taken. -/
def createdMeanwhile : Call FileStore String :=
  .tracked (.ofFunction fun _ => (.ok ("", [⟨"changes.lsc"⟩]), voicingFiles))

theorem after_createdMeanwhile : Watch.after id ⟨bareFiles, none, none⟩ createdMeanwhile
    (contentOf ⟨"changes.lsc"⟩) bareFiles.read =
      ⟨voicingFiles, some ⟨[(⟨"changes.lsc"⟩, textDigest voicingText)], ""⟩,
        some ⟨contentOf ⟨"changes.lsc"⟩, bareFiles.read, voicingFiles⟩⟩ :=
  rfl

/-- The value goes on to be told, although a file that holds something would give another. -/
theorem answers_as_stamped_created : ∃ w : Watch FileStore String,
    w.Reached id {voicingText} ∧ w.cache.isFresh w.state = .ok true ∧ w.Answers id "" ∧
      (contentOf ⟨"changes.lsc"⟩).Honest ∧
      contentOf ⟨"changes.lsc"⟩ w.state.read = .ok (voicingText, [⟨"changes.lsc"⟩]) := by
  have hbare : bareFiles.Holds {voicingText} :=
    FileStore.holds_of_nodes fun l f hnode => by simp [bareFiles, FileStore.empty] at hnode
  have hfollows : createdMeanwhile.Follows (contentOf ⟨"changes.lsc"⟩) bareFiles.read bareFiles := by
    intro made hmade
    have hmissing : bareFiles.read ⟨"changes.lsc"⟩ = .error .notFound := by decide
    rw [contentOf, hmissing]
    exact hmade
  have hread : voicingFiles.read ⟨"changes.lsc"⟩ = .ok voicingText := by decide
  have hstart : Reached id {voicingText} (⟨bareFiles, none, none⟩ : Watch FileStore String) :=
    .start bareFiles hbare
  have hreached := hstart.step
    (.call _ createdMeanwhile (contentOf ⟨"changes.lsc"⟩) bareFiles.read hfollows holds_voicingFiles)
  rw [after_createdMeanwhile] at hreached
  obtain ⟨hfresh, -⟩ := answers_as_stamped (Set.injOn_singleton _ _) hreached
  have hsame : PathCache.unchanged voicingFiles [(⟨"changes.lsc"⟩, textDigest voicingText)] =
      .ok true :=
    PathCache.unchanged_eq_true_iff.2
      (List.forall_mem_singleton.2 (FileStore.checksum_eq hread))
  obtain ⟨value, hvalue⟩ := hfresh.1 hsame
  obtain ⟨memo, hmemo, rfl, -⟩ := hvalue.exists_memo
  rw [Option.some.injEq] at hmemo
  subst hmemo
  refine ⟨_, hreached, hsame, hvalue, honest_contentOf _, ?_⟩
  dsimp only
  rw [contentOf, hread]

end Watch

end Etymon
