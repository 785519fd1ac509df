import Etymon.Files.Checksum
import Mathlib.Data.List.Basic

/-!
# What a change to a file store leaves as it is

A path leads to a place that only depends on the path and the working directory, if it leads anywhere.
A store that gets a file at some place keeps whatever is elsewhere, and every path goes on to lead
where it did.

## Main definitions

* `FileStore.target`: where a path leads if nothing is in its way.
* `FileStore.Puts`: a store that comes from another by putting one file and creating directories.

## Main results

* `FileStore.puts_replace`, `FileStore.puts_createDirs`, `FileStore.puts_write`: changes are of this
  kind.
* `FileStore.Puts.find_eq`: what is elsewhere is found as before.
* `FileStore.exists_target_child`: paths of different names in one directory lead to different places.
* `FileStore.read_eq_of_same`: two spellings of a path to a file are read alike.
-/

namespace Etymon

namespace FileStore

variable {s t : FileStore} {p : Path} {l m : Location} {text : String}

/-- Where a path leads if nothing is in its way. -/
def target (s : FileStore) (p : Path) : Location :=
  p.segments.foldl step (if p.isAbsolute then [] else s.workDir)

/-! ## Where paths lead -/

theorem target_congr (h : t.workDir = s.workDir) : t.target = s.target := by
  funext p
  rw [target, target, h]

theorem eq_foldl_of_follow {here : Location} {segments : List String}
    (h : s.follow here segments = .ok l) : l = segments.foldl step here := by
  induction segments generalizing here with
  | nil =>
    rw [follow, Except.ok.injEq] at h
    exact h.symm
  | cons segment rest ih =>
    rw [follow] at h
    split at h
    · cases h
    · cases h
    · exact ih h

theorem eq_target_of_locate (h : s.locate p = .ok l) : l = s.target p := by
  rw [locate] at h
  split at h
  · cases h
  · exact eq_foldl_of_follow h

theorem find_eq_ok_iff {n : Node} :
    s.find p = .ok (l, n) ↔ s.locate p = .ok l ∧ s.node? l = some n := by
  rw [find]
  cases hlocate : s.locate p with
  | error fault => simp [bind, Except.bind]
  | ok place =>
    cases hnode : s.node? place with
    | none =>
      simp only [bind, Except.bind, hnode, Except.ok.injEq, reduceCtorEq, false_iff, not_and]
      rintro rfl
      simp [hnode]
    | some found =>
      simp only [bind, Except.bind, hnode, pure, Except.pure, Except.ok.injEq, Prod.mk.injEq]
      constructor
      · rintro ⟨rfl, rfl⟩
        exact ⟨rfl, hnode⟩
      · rintro ⟨rfl, hn⟩
        rw [hnode, Option.some.injEq] at hn
        exact ⟨rfl, hn⟩

/-! ### Paths below a directory -/

theorem splitOn_append (separator : Char) (xs ys : List Char) :
    Text.splitOn separator (xs ++ separator :: ys) =
      Text.splitOn separator xs ++ Text.splitOn separator ys := by
  induction xs with
  | nil => simp [Text.splitOn]
  | cons x xs ih =>
    rw [List.cons_append, Text.splitOn, Text.splitOn, ih]
    split
    · rfl
    · cases hparts : Text.splitOn separator xs with
      | nil => exact absurd hparts (Text.splitOn_ne_nil _ _)
      | cons part parts => rfl

/-- A name that leads from a directory to one of its members. -/
structure IsMember (name : String) : Prop where
  closed : '/' ∉ name.toList
  audible : Path.isSilent name = false
  inward : name ≠ ".."

namespace IsMember

variable {name : String}

theorem step_eq (h : IsMember name) (l : Location) : step l name = l ++ [name] := by
  simp [step, h.audible, h.inward]

theorem isAbsolute_eq (h : IsMember name) : Path.isAbsolute ⟨name⟩ = false := by
  rw [Path.isAbsolute, decide_eq_false_iff_not]
  exact fun hhead => h.closed (List.mem_of_head? hhead)

theorem map_splitOn (h : IsMember name) :
    (Text.splitOn '/' name.toList).map String.ofList = [name] := by
  rw [Text.splitOn_of_not_mem h.closed]
  simp

/-- The segments of a text that ends in a slash and the name. -/
theorem segments_eq (h : IsMember name) {front : List Char}
    (htext : text.toList = front ++ '/' :: name.toList) :
    Path.segments ⟨text⟩ = (Text.splitOn '/' front).map String.ofList ++ [name] := by
  rw [Path.segments, htext, splitOn_append, List.map_append, h.map_splitOn]

end IsMember

theorem isAbsolute_append (hp : p.text.toList ≠ []) (rest : String) :
    Path.isAbsolute ⟨p.text ++ rest⟩ = p.isAbsolute := by
  rw [Path.isAbsolute, Path.isAbsolute, String.toList_append, List.head?_append_of_ne_nil _ hp]

/-- The members of a directory lie side by side in one place. -/
theorem exists_target_child (s : FileStore) (p : Path) :
    ∃ l, ∀ name, IsMember name → s.target (p.child name) = l ++ [name] := by
  by_cases hempty : p.text.isEmpty = true
  · refine ⟨s.workDir, fun name hname => ?_⟩
    rw [Path.child, Path.join, hempty, Bool.or_true, if_pos rfl, target, hname.isAbsolute_eq,
      Path.segments, hname.map_splitOn]
    exact hname.step_eq _
  have hp : p.text.toList ≠ [] := by simpa using hempty
  by_cases hlast : p.text.toList.getLast? = some '/'
  · obtain ⟨front, hfront⟩ := List.getLast?_eq_some_iff.1 hlast
    refine ⟨((Text.splitOn '/' front).map String.ofList).foldl step
      (if p.isAbsolute then [] else s.workDir), fun name hname => ?_⟩
    have htext : (p.text ++ name).toList = front ++ '/' :: name.toList := by
      simp [String.toList_append, hfront]
    rw [Path.child, Path.join, hname.isAbsolute_eq, Bool.false_or, if_neg hempty, if_pos hlast,
      target, isAbsolute_append hp, hname.segments_eq htext, List.foldl_append]
    exact hname.step_eq _
  · refine ⟨s.target p, fun name hname => ?_⟩
    have htext : (p.text ++ ("/" ++ name)).toList = p.text.toList ++ '/' :: name.toList := by
      simp [String.toList_append]
    rw [Path.child, Path.join, hname.isAbsolute_eq, Bool.false_or, if_neg hempty, if_neg hlast,
      String.append_assoc, target, isAbsolute_append hp, hname.segments_eq htext, List.foldl_append]
    exact hname.step_eq _

/-! ### Paths without detours -/

/-- The names of a location as a path without detours gives it: each of them leads inward. -/
def IsProper (l : Location) : Prop :=
  ∀ name ∈ l, IsMember name

theorem not_mem_of_mem_splitOn {separator : Char} {cs part : List Char}
    (h : part ∈ Text.splitOn separator cs) : separator ∉ part := by
  fun_induction Text.splitOn separator cs generalizing part <;> grind

theorem closed_of_mem_segments {segment : String} (h : segment ∈ p.segments) :
    '/' ∉ segment.toList := by
  obtain ⟨part, hpart, rfl⟩ := List.mem_map.1 h
  simpa using not_mem_of_mem_splitOn hpart

theorem IsProper.step {here : Location} (h : IsProper here) {segment : String}
    (hclosed : '/' ∉ segment.toList) : IsProper (step here segment) := by
  unfold FileStore.step
  split
  · exact h
  · next haudible =>
    split
    · exact fun name hname => h name (List.dropLast_subset _ hname)
    · next hinward =>
      intro name hname
      rcases List.mem_append.1 hname with hname | hname
      · exact h name hname
      · rw [List.mem_singleton.1 hname]
        exact ⟨hclosed, by simpa using haudible, hinward⟩

theorem IsProper.foldl_step {here : Location} (h : IsProper here) {segments : List String}
    (hclosed : ∀ segment ∈ segments, '/' ∉ segment.toList) :
    IsProper (segments.foldl FileStore.step here) := by
  induction segments generalizing here with
  | nil => exact h
  | cons segment rest ih =>
    rw [List.forall_mem_cons] at hclosed
    exact ih (h.step hclosed.1) hclosed.2

/-- Paths only lead to proper places. -/
theorem isProper_target (hdir : IsProper s.workDir) (p : Path) : IsProper (s.target p) := by
  refine IsProper.foldl_step ?_ fun segment hsegment => closed_of_mem_segments hsegment
  split
  · exact List.forall_mem_nil _
  · exact hdir

theorem IsProper.foldl_step_eq (h : IsProper l) (here : Location) :
    l.foldl FileStore.step here = here ++ l := by
  induction l generalizing here with
  | nil => simp
  | cons name rest ih =>
    rw [IsProper, List.forall_mem_cons] at h
    rw [List.foldl_cons, h.1.step_eq, ih h.2, List.append_assoc, List.singleton_append]

theorem segments_joinWith (h : IsProper l) (hl : l ≠ []) :
    Path.segments ⟨Text.joinWith "/" l⟩ = l := by
  induction l with
  | nil => exact absurd rfl hl
  | cons name rest ih =>
    rw [IsProper, List.forall_mem_cons] at h
    cases rest with
    | nil => exact h.1.map_splitOn
    | cons next rest =>
      have hsplit : (name ++ "/" ++ Text.joinWith "/" (next :: rest)).toList =
          name.toList ++ '/' :: (Text.joinWith "/" (next :: rest)).toList := by
        simp [String.toList_append]
      have hrest := ih h.2 (List.cons_ne_nil _ _)
      rw [Path.segments] at hrest
      rw [Text.joinWith_cons_cons, Path.segments, hsplit, Text.splitOn_append_cons h.1.closed,
        List.map_cons, hrest, String.ofList_toList]

/-- The path without detours to a proper place leads there. -/
theorem target_absolute (h : IsProper l) : s.target (absolute l) = l := by
  have hroot : (absolute l).isAbsolute = true := by
    simp [absolute, Path.isAbsolute, String.toList_append]
  rw [target, if_pos hroot]
  by_cases hl : l = []
  · rw [hl]
    decide
  · have htext : ("/" ++ Text.joinWith "/" l).toList =
        [] ++ '/' :: (Text.joinWith "/" l).toList := by
      simp [String.toList_append]
    have hsegments := segments_joinWith h hl
    rw [Path.segments] at hsegments
    rw [absolute, Path.segments, htext, Text.splitOn_append_cons List.not_mem_nil, List.map_cons,
      hsegments, List.foldl_cons]
    exact h.foldl_step_eq []

/-! ## Changes -/

/-- `t` is `s` with a file of the given text at `l`, perhaps, and with more directories. -/
structure Puts (s t : FileStore) (l : Location) (text : String) : Prop where
  workDir : t.workDir = s.workDir
  directories : ∀ {m time}, s.node? m = some (.directory time) → t.node? m = some (.directory time)
  files : ∀ {m f}, t.node? m = some (.file f) → s.node? m = some (.file f) ∨ m = l ∧ f.text = text
  kept : ∀ {m f}, m ≠ l → s.node? m = some (.file f) → t.node? m = some (.file f)

namespace Puts

theorem refl (s : FileStore) (l : Location) (text : String) : s.Puts s l text :=
  ⟨rfl, id, .inl, fun _ => id⟩

theorem trans {u : FileStore} (hst : s.Puts t l text) (htu : t.Puts u l text) :
    s.Puts u l text := by
  refine ⟨htu.workDir.trans hst.workDir, fun h => htu.directories (hst.directories h), ?_, ?_⟩
  · intro m f h
    rcases htu.files h with h | h
    · exact hst.files h
    · exact .inr h
  · intro m f hm h
    exact htu.kept hm (hst.kept hm h)

theorem target_eq (h : s.Puts t l text) (p : Path) : t.target p = s.target p := by
  rw [target, target, h.workDir]

theorem follow_eq (h : s.Puts t l text) {here : Location} {segments : List String}
    (hfollow : s.follow here segments = .ok m) : t.follow here segments = .ok m := by
  induction segments generalizing here with
  | nil => exact hfollow
  | cons segment rest ih =>
    rw [follow] at hfollow ⊢
    split at hfollow
    · cases hfollow
    · cases hfollow
    · next hdir =>
      rw [h.directories hdir]
      exact ih hfollow

theorem locate_eq (h : s.Puts t l text) (hlocate : s.locate p = .ok m) : t.locate p = .ok m := by
  rw [locate] at hlocate ⊢
  split at hlocate
  · cases hlocate
  · next hempty =>
    rw [if_neg hempty, h.workDir]
    exact h.follow_eq hlocate

/-- A file elsewhere is found as before. -/
theorem find_eq (h : s.Puts t l text) {f : StoredFile} (hfind : s.find p = .ok (m, .file f))
    (hm : m ≠ l) : t.find p = .ok (m, .file f) := by
  rw [find_eq_ok_iff] at hfind ⊢
  exact ⟨h.locate_eq hfind.1, h.kept hm hfind.2⟩

end Puts

@[simp] theorem node?_tick (s : FileStore) (m : Location) : s.tick.node? m = s.node? m := by
  cases m <;> rfl

/-- A file in the place of whatever was there, unless that is a directory. -/
theorem puts_set {f : StoredFile} (hl : l ≠ [])
    (hnode : ∀ time, s.node? l ≠ some (.directory time)) :
    s.Puts (s.set l (.file f)).tick l f.text := by
  refine ⟨rfl, ?_, ?_, ?_⟩
  · intro m time h
    have hm : m ≠ l := by
      rintro rfl
      exact hnode time h
    rwa [node?_tick, node?_set_of_ne _ hm]
  · intro m g h
    rw [node?_tick] at h
    by_cases hm : m = l
    · rw [hm, node?_set _ hl, Option.some.injEq, Node.file.injEq] at h
      exact .inr ⟨hm, by rw [← h]⟩
    · rw [node?_set_of_ne _ hm] at h
      exact .inl h
  · intro m g hm h
    rwa [node?_tick, node?_set_of_ne _ hm]

/-- A directory where nothing was. -/
theorem puts_set_directory {time : Nat} (hnone : s.node? m = none) (l : Location) (text : String) :
    s.Puts (s.set m (.directory time)).tick l text := by
  have hm : m ≠ [] := by
    rintro rfl
    cases hnone
  have hne : ∀ {k n}, s.node? k = some n → k ≠ m := by
    rintro k n hk rfl
    rw [hnone] at hk
    cases hk
  refine ⟨rfl, ?_, ?_, ?_⟩
  · intro k time' h
    rwa [node?_tick, node?_set_of_ne _ (hne h)]
  · intro k f h
    rw [node?_tick] at h
    by_cases hk : k = m
    · rw [hk, node?_set _ hm] at h
      cases h
    · rw [node?_set_of_ne _ hk] at h
      exact .inl h
  · intro k f _ h
    rwa [node?_tick, node?_set_of_ne _ (hne h)]

theorem ne_nil_of_node? (h : ∀ time, s.node? l ≠ some (.directory time)) : l ≠ [] := by
  rintro rfl
  exact h 0 rfl

theorem puts_replace (h : s.replace p text = .ok t) : s.Puts t (s.target p) text := by
  rw [replace] at h
  cases hlocate : s.locate p with
  | error fault => simp [hlocate, bind, Except.bind] at h
  | ok l =>
    simp only [hlocate, bind, Except.bind] at h
    split at h
    · cases h
    · next hnode =>
      simp only [pure, Except.pure, Except.ok.injEq] at h
      rw [← eq_target_of_locate hlocate, ← h]
      have hnode : ∀ time, s.node? l ≠ some (.directory time) := fun time => hnode time
      exact puts_set (ne_nil_of_node? hnode) hnode

/-- A replaced file is found with its new text. -/
theorem read_replace (h : s.replace p text = .ok t) : t.read p = .ok text := by
  have hputs := puts_replace h
  rw [replace] at h
  cases hlocate : s.locate p with
  | error fault => simp [hlocate, bind, Except.bind] at h
  | ok l =>
    simp only [hlocate, bind, Except.bind] at h
    split at h
    · cases h
    · next hnode =>
      simp only [pure, Except.pure, Except.ok.injEq] at h
      subst h
      have hl := ne_nil_of_node? fun time => hnode time
      have hfind : (s.set l (.file ⟨text, s.clock, false⟩)).tick.find p =
          .ok (l, .file ⟨text, s.clock, false⟩) :=
        find_eq_ok_iff.2 ⟨hputs.locate_eq hlocate, by rw [node?_tick, node?_set _ hl]⟩
      rw [read, hfind]
      rfl

theorem puts_createFrom (here : Location) (segments : List String) (l : Location) (text : String) :
    s.Puts (s.createFrom here segments).2 l text := by
  induction segments generalizing s here with
  | nil => exact .refl s l text
  | cons segment rest ih =>
    rw [createFrom]
    split
    · exact ih _
    · exact .refl s l text
    · next hnone => exact (puts_set_directory hnone l text).trans (ih _)

theorem puts_createDirs (s : FileStore) (p : Path) (l : Location) (text : String) :
    s.Puts (s.createDirs p).2 l text :=
  puts_createFrom _ _ l text

/-- Writing changes the text and the time of one file. -/
theorem puts_write (h : s.write p text = .ok t) :
    s.Puts t (s.target p) text ∧ ∃ f, t.find p = .ok (s.target p, .file f) ∧ f.text = text := by
  rw [write] at h
  cases hlocate : s.locate p with
  | error fault => simp [hlocate, bind, Except.bind] at h
  | ok l =>
    rw [← eq_target_of_locate hlocate]
    have hput : ∀ f : StoredFile, f.text = text → (∀ time, s.node? l ≠ some (.directory time)) →
        t = (s.set l (.file f)).tick →
        s.Puts t l text ∧ ∃ f, t.find p = .ok (l, .file f) ∧ f.text = text := by
      rintro f rfl hnode rfl
      have hl := ne_nil_of_node? hnode
      have hputs := puts_set (f := f) hl hnode
      refine ⟨hputs, f, find_eq_ok_iff.2 ⟨hputs.locate_eq hlocate, ?_⟩, rfl⟩
      rw [node?_tick, node?_set _ hl]
    simp only [hlocate, bind, Except.bind] at h
    split at h
    · cases h
    · next f hnode =>
      simp only [pure, Except.pure, Except.ok.injEq] at h
      exact hput _ rfl (fun time hdir => by rw [hnode] at hdir; cases hdir) h.symm
    · next hnode =>
      split at h
      · simp only [pure, Except.pure, Except.ok.injEq] at h
        exact hput _ rfl (fun time hdir => by rw [hnode] at hdir; cases hdir) h.symm
      · cases h
      · cases h

/-! ## What is read of a file -/

section

variable {f : StoredFile}

theorem mem_nodes_of_file (h : s.node? l = some (.file f)) :
    (l, .file f) ∈ s.nodes := by
  cases l with
  | nil => cases h
  | cons name rest =>
    obtain ⟨front, back, hnodes, -⟩ := List.lookup_eq_some_iff.1 h
    rw [hnodes]
    exact List.mem_append_right _ List.mem_cons_self

theorem read_of_find (h : s.find p = .ok (l, .file f)) : s.read p = .ok f.text := by
  rw [read, h]
  rfl

theorem exists_find_of_read (h : s.read p = .ok text) :
    ∃ f, s.find p = .ok (s.target p, .file f) ∧ f.text = text := by
  rw [read] at h
  cases hfind : s.find p with
  | error fault => simp [hfind, bind, Except.bind] at h
  | ok found =>
    obtain ⟨l, n⟩ := found
    cases n with
    | directory time => simp [hfind, bind, Except.bind] at h
    | file f =>
      simp only [hfind, bind, Except.bind, pure, Except.pure, Except.ok.injEq] at h
      exact ⟨f, by rw [eq_target_of_locate (find_eq_ok_iff.1 hfind).1], h⟩

/-- A file that can be read can be written over. -/
theorem exists_write_of_read {old : String} (h : s.read p = .ok old) (text : String) :
    ∃ t, s.write p text = .ok t := by
  obtain ⟨f, hfind, -⟩ := exists_find_of_read h
  obtain ⟨hlocate, hnode⟩ := find_eq_ok_iff.1 hfind
  exact ⟨(s.set (s.target p) (.file { f with text, modified := s.clock })).tick, by
    simp only [write, hlocate, bind, Except.bind, hnode, pure, Except.pure]⟩

/-- A file elsewhere is read as before. -/
theorem Puts.read_eq {other : String} (hputs : s.Puts t l other) (h : s.read p = .ok text)
    (hl : s.target p ≠ l) : t.read p = .ok text := by
  obtain ⟨f, hfind, rfl⟩ := exists_find_of_read h
  exact read_of_find (hputs.find_eq hfind hl)

/-- A file may be written at any time of the clock. -/
theorem puts_write_at {time : Nat} (h : { s with clock := time }.write p text = .ok t) :
    s.Puts t (s.target p) text ∧ t.read p = .ok text := by
  obtain ⟨hputs, f, hfind, rfl⟩ := puts_write h
  refine ⟨⟨hputs.workDir, fun {m _} hm => hputs.directories (by cases m <;> exact hm), ?_, ?_⟩,
    read_of_find hfind⟩
  · intro m g hm
    rcases hputs.files hm with hold | hnew
    · exact .inl (by cases m <;> exact hold)
    · exact .inr hnew
  · intro m g hne hm
    exact hputs.kept hne (by cases m <;> exact hm)

theorem checksum_of_read (h : s.read p = .ok text) :
    s.checksum p = .ok (Digest.sha256 (Digest.bytes text)) := by
  rw [checksum, h]

/-- Sixty-four digits are never mistaken for the checksum of a missing file. -/
theorem sha256_ne_missingChecksum (message : List UInt8) :
    Digest.sha256 message ≠ missingChecksum := by
  intro h
  have hlength : (Digest.sha256 message).toList.length = 64 := by
    simp [Digest.sha256, Digest.State.words, Digest.hexWord]
  rw [h] at hlength
  exact absurd hlength (by decide)

theorem checksum_eq_missing_iff :
    s.checksum p = .ok missingChecksum ↔ s.read p = .error .notFound := by
  rw [checksum]
  split
  · next text hread => simp [hread, sha256_ne_missingChecksum]
  · next hread => simp [hread]
  · next fault hfault hread => simpa [hread] using hfault

theorem modified_lt (s : FileStore) (p : Path) : s.modified p < 18446744073709551616 := by
  rw [modified]
  split
  · exact Nat.lt_of_le_of_lt (Nat.min_le_right _ _) (by decide)
  · exact Nat.lt_of_le_of_lt (Nat.min_le_right _ _) (by decide)
  · decide

end

/-! ## Spellings of one path -/

/-- A silent segment on the way to a file changes nothing, whatever the store. -/
theorem follow_audible {here : Location} {segments : List String} {f : StoredFile}
    (h : s.follow here segments = .ok l) (hnode : s.node? l = some (.file f)) (t : FileStore) :
    t.follow here segments = t.follow here (segments.filter fun segment => !Path.isSilent segment) := by
  induction segments generalizing here with
  | nil => rfl
  | cons segment rest ih =>
    rw [follow] at h
    split at h
    · cases h
    · cases h
    · next time hdir =>
      have hrest := ih h
      by_cases hsilent : Path.isSilent segment = true
      · have hstep : step here segment = here := by rw [step, if_pos hsilent]
        rw [hstep] at h hrest
        rw [List.filter_cons_of_neg (by simp [hsilent]), ← hrest]
        cases rest with
        | nil =>
          rw [follow, Except.ok.injEq] at h
          rw [h, hnode] at hdir
          cases hdir
        | cons next rest =>
          rw [follow, hstep]
          cases hhere : t.node? here with
          | none => rw [follow, hhere]
          | some n => cases n with
            | file g => rw [follow, hhere]
            | directory time' => rfl
      · rw [List.filter_cons_of_pos (by simpa using hsilent), follow, follow, hrest]

theorem isAbsolute_iff (h : p.text ≠ "") : p.isAbsolute = true ↔ p.segments.head? = some "" := by
  rw [Path.isAbsolute, decide_eq_true_iff, Path.segments]
  cases hchars : p.text.toList with
  | nil => exact absurd (String.toList_injective (by simpa using hchars)) h
  | cons c cs =>
    by_cases hc : c = '/'
    · simp [Text.splitOn, hc]
    · rw [Text.splitOn, if_neg hc]
      rcases hparts : Text.splitOn '/' cs with _ | ⟨part, parts⟩ <;> simp [hc]

/-- A path to a file is followed along its components, also in another store. -/
theorem locate_of_read (h : s.read p = .ok text) (hdir : t.workDir = s.workDir) :
    t.locate p = t.follow (if p.components.head? = some "" then [] else t.workDir)
      (p.components.filter fun segment => !Path.isSilent segment) := by
  obtain ⟨f, hfind, -⟩ := exists_find_of_read h
  obtain ⟨hlocate, hnode⟩ := find_eq_ok_iff.1 hfind
  rw [locate] at hlocate ⊢
  split at hlocate
  · cases hlocate
  · next hempty =>
    have hcomponents : p.components.head? = p.segments.head? ∧
        p.components.filter (fun segment => !Path.isSilent segment) =
          p.segments.filter fun segment => !Path.isSilent segment := by
      rw [Path.components]
      cases p.segments <;> simp [hempty, List.filter_cons]
    rw [if_neg hempty, hdir, follow_audible hlocate hnode, hcomponents.1, hcomponents.2]
    simp only [isAbsolute_iff (by simpa using hempty)]

/-- Spellings of one path that lead to files lead to the same place, also in another store. -/
theorem read_eq_of_same {q : Path} (hsame : p.same q = true) {text' : String} (hp : s.read p = .ok text)
    (hq : s.read q = .ok text') (hdir : t.workDir = s.workDir) : t.read p = t.read q := by
  have hcomponents : p.components = q.components := of_decide_eq_true hsame
  rw [read, read, find, find, locate_of_read hp hdir, locate_of_read hq hdir, hcomponents]

end FileStore

end Etymon
