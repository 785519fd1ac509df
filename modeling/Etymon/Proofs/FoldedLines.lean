import Etymon.LogicalLine
import Mathlib.Data.List.Forall2

/-!
# Folded lines

Folding a file into logical lines loses no content, doubles none and keeps the order. What a physical
line contributes, and whether it starts a logical line, can be told from its text and from the text of
the line before it. Lines without content start nothing, but a backslash of theirs counts.

## Main definitions

* `IsContent`: what a physical line contributes.
* `EndsInBackslash`: whether the next line goes on with the same logical line.
* `StartsLine`: a physical line that starts a logical line wherever it stands.

## Main results

* `isContent_iff`: a physical line has one content, which is what the folding takes off it.
* `attached_iff_startsLine`: a piece is attached unless its line starts a logical line.
* `exists_run_iff`: runs start at the first piece and at the ones that are not attached.
* `logicalLines_fold`: the logical lines are the contents of the physical lines in runs.
-/

namespace Etymon

open Text

/-! ## What a physical line says -/

/-- A physical line without its comment. -/
def uncommented (raw : List Char) : List Char :=
  raw.takeWhile (· ≠ '#')

/-- Before its comment and some blanks the line ends in a backslash. -/
def EndsInBackslash (raw : List Char) : Prop :=
  ∃ body blanks, uncommented raw = body ++ '\\' :: blanks ∧ ∀ c ∈ blanks, isBlank c = true

/-- A physical line without its comment, a backslash that ends what is left, and its outer blanks. -/
inductive IsContent (raw : List Char) : List Char → Prop
  | plain (h : ¬ EndsInBackslash raw) : IsContent raw (trim (uncommented raw))
  | backslash {body blanks : List Char} (hraw : uncommented raw = body ++ '\\' :: blanks)
      (hblanks : ∀ c ∈ blanks, isBlank c = true) : IsContent raw (trim body)

/-- The line with this number neither starts with a blank nor follows a line that ends in a backslash. -/
def StartsLine (ls : List (List Char)) (number : Nat) : Prop :=
  ∃ before raw after, ls = before ++ raw :: after ∧ number = before.length + 1 ∧
    (∀ c ∈ raw.head?, isBlank c = false) ∧ ∀ previous ∈ before.getLast?, ¬ EndsInBackslash previous

section

variable {raw body content : List Char}

theorem beforeBackslash?_eq_some_iff {cs : List Char} : beforeBackslash? cs = some body ↔
    ∃ blanks, cs = body ++ '\\' :: blanks ∧ ∀ c ∈ blanks, isBlank c = true := by
  constructor
  · intro h
    obtain ⟨blanks, hcs, hblanks⟩ := exists_eq_trimEnd_append cs
    unfold beforeBackslash? at h
    split at h
    · next rest hrest =>
      have hend := congrArg List.reverse hrest
      rw [List.reverse_reverse, List.reverse_cons, Option.some.inj h] at hend
      exact ⟨blanks, by rw [hcs, hend, List.append_assoc, List.singleton_append], hblanks⟩
    · cases h
  · rintro ⟨blanks, rfl, hblanks⟩
    have hend : trimEnd (body ++ '\\' :: blanks) = body ++ ['\\'] := by
      rw [List.append_cons, trimEnd_append_blanks hblanks, trimEnd_of_not_isBlank body (by decide)]
    simp [beforeBackslash?, hend]

theorem ofText_of_none (h : beforeBackslash? (uncommented raw) = none) : PhysicalLine.ofText raw =
    ⟨trim (uncommented raw), (uncommented raw).head?.any isBlank, false⟩ := by
  rw [uncommented] at h
  simp only [PhysicalLine.ofText, h]
  rfl

theorem ofText_of_some (h : beforeBackslash? (uncommented raw) = some body) :
    PhysicalLine.ofText raw = ⟨trim body, body.head?.any isBlank, true⟩ := by
  rw [uncommented] at h
  simp only [PhysicalLine.ofText, h]
  rfl

theorem continues_ofText_iff : (PhysicalLine.ofText raw).continues = true ↔ EndsInBackslash raw := by
  have hbody : ∀ body, beforeBackslash? (uncommented raw) = some body ↔ _ :=
    fun _ => beforeBackslash?_eq_some_iff
  exact Option.isSome_iff_exists.trans (exists_congr hbody)

/-- Every physical line has exactly one content. -/
theorem isContent_iff : IsContent raw content ↔ (PhysicalLine.ofText raw).content = content := by
  cases hbody : beforeBackslash? (uncommented raw) with
  | none =>
    have hplain : ¬ EndsInBackslash raw := by
      rw [← continues_ofText_iff, ofText_of_none hbody]
      simp
    rw [ofText_of_none hbody]
    constructor
    · rintro (- | ⟨hraw, hblanks⟩)
      · rfl
      · exact absurd ⟨_, _, hraw, hblanks⟩ hplain
    · rintro rfl
      exact .plain hplain
  | some body =>
    obtain ⟨blanks, hraw, hblanks⟩ := beforeBackslash?_eq_some_iff.1 hbody
    rw [ofText_of_some hbody]
    constructor
    · rintro (hplain | ⟨hraw', hblanks'⟩)
      · exact absurd ⟨_, _, hraw, hblanks⟩ hplain
      · have hsame := beforeBackslash?_eq_some_iff.2 ⟨_, hraw', hblanks'⟩
        rw [Option.some.inj (hbody.symm.trans hsame)]
    · rintro rfl
      exact .backslash hraw hblanks

theorem head?_of_isPrefix (hbody : body <+: raw) (hne : trim body ≠ []) : body.head? = raw.head? := by
  obtain ⟨more, rfl⟩ := hbody
  cases body with
  | nil => exact absurd rfl hne
  | cons c body => rfl

/-- A line with content starts as what is left of it does. -/
theorem indented_ofText (hne : (PhysicalLine.ofText raw).content ≠ []) :
    (PhysicalLine.ofText raw).indented = raw.head?.any isBlank := by
  have huncommented : uncommented raw <+: raw := List.takeWhile_prefix _
  cases hbody : beforeBackslash? (uncommented raw) with
  | none =>
    rw [ofText_of_none hbody] at hne ⊢
    simp only [head?_of_isPrefix huncommented hne]
  | some body =>
    obtain ⟨blanks, hraw, -⟩ := beforeBackslash?_eq_some_iff.1 hbody
    rw [ofText_of_some hbody] at hne ⊢
    simp only [head?_of_isPrefix (List.IsPrefix.trans ⟨_, hraw.symm⟩ huncommented) hne]

end

/-! ## Pieces -/

theorem startsLine_append_iff {before after : List (List Char)} {raw : List Char} :
    StartsLine (before ++ raw :: after) (before.length + 1) ↔
      raw.head?.any isBlank = false ∧
        (before.getLast?.any fun previous => (PhysicalLine.ofText previous).continues) = false := by
  have hstarts : StartsLine (before ++ raw :: after) (before.length + 1) ↔
      (∀ c ∈ raw.head?, isBlank c = false) ∧
        ∀ previous ∈ before.getLast?, ¬ EndsInBackslash previous := by
    constructor
    · rintro ⟨before', raw', after', hls, hnumber, hhead, hlast⟩
      obtain ⟨rfl, hrest⟩ := List.append_inj hls (by omega)
      obtain ⟨rfl, -⟩ := List.cons.inj hrest
      exact ⟨hhead, hlast⟩
    · rintro ⟨hhead, hlast⟩
      exact ⟨before, raw, after, rfl, rfl, hhead, hlast⟩
  simp only [hstarts, Option.any_eq_false, ← continues_ofText_iff, Bool.not_eq_true]
  rfl

/-- A piece is attached unless its line starts a logical line. -/
theorem attached_of_mem_pieces (before rest : List (List Char)) :
    ∀ p ∈ pieces (before.length + 1)
        (before.getLast?.any fun previous => (PhysicalLine.ofText previous).continues)
        (rest.map .ofText),
      p.attached = false ↔ StartsLine (before ++ rest) p.number := by
  induction rest generalizing before with
  | nil => exact fun p hp => nomatch hp
  | cons raw rest ih =>
    have ih := ih (before ++ [raw])
    rw [List.length_append, List.length_singleton, List.append_assoc, List.singleton_append,
      List.getLast?_concat, Option.any_some] at ih
    intro p hp
    rw [List.map_cons, pieces] at hp
    split at hp
    · exact ih p hp
    · next hne =>
      rcases List.mem_cons.1 hp with rfl | hp
      · rw [startsLine_append_iff, indented_ofText (by simpa using hne), Bool.or_eq_false_iff, and_comm]
      · exact ih p hp

/-- A content under the number of its line. -/
def Piece.numbered (p : Piece) : List Char × Nat :=
  (p.content, p.number)

/-- The pieces are the contents that are not empty, under the numbers of their lines. -/
theorem map_numbered_pieces (number : Nat) (continued : Bool) (ls : List PhysicalLine) :
    (pieces number continued ls).map Piece.numbered =
      ((ls.map PhysicalLine.content).zipIdx number).filter fun c => !c.1.isEmpty := by
  induction ls generalizing number continued with
  | nil => rfl
  | cons line ls ih =>
    have ih := ih (number + 1) line.continues
    rw [pieces, List.map_cons, List.zipIdx_cons, List.filter_cons]
    split <;> simp_all [Piece.numbered]

theorem map_content_pieces (number : Nat) (continued : Bool) (ls : List PhysicalLine) :
    (pieces number continued ls).map Piece.content =
      (ls.map PhysicalLine.content).filter fun c => !c.isEmpty := by
  calc (pieces number continued ls).map Piece.content
      = ((pieces number continued ls).map Piece.numbered).map Prod.fst := by
        rw [List.map_map]
        rfl
    _ = (((ls.map PhysicalLine.content).zipIdx number).map Prod.fst).filter fun c => !c.isEmpty := by
        rw [map_numbered_pieces, List.filter_map]
        rfl
    _ = (ls.map PhysicalLine.content).filter fun c => !c.isEmpty := by
        rw [List.zipIdx_map_fst]

theorem pairwise_number_pieces (number : Nat) (continued : Bool) (ls : List PhysicalLine) :
    (pieces number continued ls).Pairwise fun p q => p.number < q.number := by
  have hnumbers : (pieces number continued ls).map Piece.number =
      (((ls.map PhysicalLine.content).zipIdx number).filter fun c => !c.1.isEmpty).map Prod.snd := by
    rw [← map_numbered_pieces number continued, List.map_map]
    rfl
  have hsublist := (List.filter_sublist (p := fun c : List Char × Nat => !c.1.isEmpty)
    (l := (ls.map PhysicalLine.content).zipIdx number)).map Prod.snd
  rw [← hnumbers, List.zipIdx_map_snd] at hsublist
  exact List.pairwise_map.1 (List.Pairwise.sublist hsublist List.pairwise_lt_range')

/-! ## Runs -/

theorem runs_cons_ne_nil (p : Piece) (ps : List Piece) :
    ∃ more following, runs (p :: ps) = (p, more) :: following := by
  rw [runs]
  split
  · exact ⟨_, _, rfl⟩
  · split <;> exact ⟨_, _, rfl⟩

/-- Every run but the first starts with a piece that is not attached. -/
theorem attached_of_mem_tail_runs (ps : List Piece) : ∀ r ∈ (runs ps).tail, r.1.attached = false := by
  induction ps with
  | nil => simp [runs]
  | cons p ps ih =>
    rw [runs]
    split
    · simp
    · next next more following heq =>
      rw [heq] at ih
      split
      · exact ih
      · exact List.forall_mem_cons.2 ⟨by simp_all, ih⟩

/-- A piece starts a run exactly if it is the first of all or not attached. -/
theorem exists_run_iff {ps : List Piece} {p : Piece} (hp : p ∈ ps) :
    (∃ r ∈ runs ps, r.1 = p) ↔ ps.head? = some p ∨ p.attached = false := by
  constructor
  · rintro ⟨r, hr, rfl⟩
    cases ps with
    | nil => cases hp
    | cons first ps =>
      obtain ⟨more, following, hruns⟩ := runs_cons_ne_nil first ps
      have htail := attached_of_mem_tail_runs (first :: ps)
      rw [hruns] at hr htail
      rcases List.mem_cons.1 hr with rfl | hr
      · exact .inl rfl
      · exact .inr (htail r hr)
  · rintro (hfirst | hdetached)
    · obtain ⟨ps, rfl⟩ : ∃ rest, ps = p :: rest := ⟨_, (List.cons_head?_tail hfirst).symm⟩
      obtain ⟨more, following, hruns⟩ := runs_cons_ne_nil p ps
      exact ⟨(p, more), by simp [hruns], rfl⟩
    · rw [← flatMap_runs ps, List.mem_flatMap] at hp
      obtain ⟨r, hr, hp⟩ := hp
      rcases List.mem_cons.1 hp with rfl | hp
      · exact ⟨r, hr, rfl⟩
      · rw [attached_of_mem_runs hr p hp] at hdetached
        cases hdetached

theorem map_fst_runs_sublist (ps : List Piece) : ((runs ps).map Prod.fst).Sublist ps := by
  have hheads : ∀ rs : List (Piece × List Piece),
      (rs.map Prod.fst).Sublist (rs.flatMap fun r => r.1 :: r.2) := by
    intro rs
    induction rs with
    | nil => exact List.Sublist.refl _
    | cons r rs ih => exact ((List.nil_sublist r.2).append ih).cons_cons r.1
  simpa only [flatMap_runs] using hheads (runs ps)

/-! ## Joined texts -/

theorem intercalate_space_cons (first : List Char) (more : List (List Char)) :
    [' '].intercalate (first :: more) = first ++ more.flatMap fun other => ' ' :: other := by
  induction more generalizing first with
  | nil => simp
  | cons other more ih => simp [List.intercalate_cons_cons, ih]

/-- Texts that are joined in groups can be joined at once. -/
theorem intercalate_space_flatten {groups : List (List (List Char))} (h : ∀ g ∈ groups, g ≠ []) :
    [' '].intercalate (groups.map [' '].intercalate) = [' '].intercalate groups.flatten := by
  have hmore : ∀ gs : List (List (List Char)), (∀ g ∈ gs, g ≠ []) →
      (gs.map [' '].intercalate).flatMap (fun other => ' ' :: other) =
        gs.flatten.flatMap fun other => ' ' :: other := by
    intro gs hgs
    induction gs with
    | nil => rfl
    | cons g gs ih =>
      have hrest := ih fun g hg => hgs g (List.mem_cons_of_mem _ hg)
      obtain ⟨first, more, rfl⟩ := List.exists_cons_of_ne_nil (hgs g List.mem_cons_self)
      simp [intercalate_space_cons, hrest]
  cases groups with
  | nil => rfl
  | cons g gs =>
    obtain ⟨hg, hgs⟩ := List.forall_mem_cons.1 h
    obtain ⟨first, more, rfl⟩ := List.exists_cons_of_ne_nil hg
    simp [intercalate_space_cons, hmore gs hgs]

theorem text_ofRun (r : Piece × List Piece) :
    (LogicalLine.ofRun r).text = [' '].intercalate ((r.1 :: r.2).map Piece.content) := by
  rw [List.map_cons, intercalate_space_cons, List.flatMap_map]
  rfl

/-! ## Logical lines -/

theorem forall₂_isContent_iff {ls contents : List (List Char)} :
    List.Forall₂ IsContent ls contents ↔
      contents = ls.map fun raw => (PhysicalLine.ofText raw).content := by
  have hfunctional : IsContent = fun raw content => (PhysicalLine.ofText raw).content = content := by
    funext raw content
    exact propext isContent_iff
  have hmap := List.forall₂_map_left_iff (R := Eq) (f := fun raw => (PhysicalLine.ofText raw).content)
    (l := ls) (u := contents)
  rw [hfunctional, ← hmap, List.forall₂_eq_eq_eq]
  exact eq_comm

section

variable {ls : List (List Char)} {p q : Piece}

theorem attached_iff_startsLine (hp : p ∈ pieces 1 false (ls.map .ofText)) :
    p.attached = false ↔ StartsLine ls p.number :=
  attached_of_mem_pieces [] ls p hp

/-- The number of its line tells pieces apart. -/
theorem eq_of_numbered_eq (hp : p ∈ pieces 1 false (ls.map .ofText))
    (hq : q ∈ pieces 1 false (ls.map .ofText)) (h : p.numbered = q.numbered) : p = q := by
  obtain ⟨hcontent, hnumber⟩ := Prod.mk.inj h
  have hp := attached_iff_startsLine hp
  rw [hnumber, ← attached_iff_startsLine hq] at hp
  cases p
  cases q
  simp_all

/-- A content starts a group of contents exactly if it is the first of all or its line starts a
logical line. -/
theorem exists_group_iff (hp : p ∈ pieces 1 false (ls.map .ofText)) :
    (∃ r ∈ runs (pieces 1 false (ls.map .ofText)), r.1.numbered = p.numbered) ↔
      ((pieces 1 false (ls.map .ofText)).map Piece.numbered).head? = some p.numbered ∨
        StartsLine ls p.number := by
  have hstarts := exists_run_iff hp
  have hmem := (map_fst_runs_sublist (pieces 1 false (ls.map .ofText))).subset
  rw [attached_iff_startsLine hp] at hstarts
  have hgroup : (∃ r ∈ runs (pieces 1 false (ls.map .ofText)), r.1.numbered = p.numbered) ↔
      ∃ r ∈ runs (pieces 1 false (ls.map .ofText)), r.1 = p := by
    refine exists_congr fun r => and_congr_right fun hr => ⟨fun h => ?_, fun h => h ▸ rfl⟩
    exact eq_of_numbered_eq (hmem (List.mem_map_of_mem hr)) hp h
  have hfirst : ((pieces 1 false (ls.map .ofText)).map Piece.numbered).head? = some p.numbered ↔
      (pieces 1 false (ls.map .ofText)).head? = some p := by
    rw [List.head?_map, Option.map_eq_some_iff]
    constructor
    · rintro ⟨q, hq, h⟩
      rwa [← eq_of_numbered_eq (List.mem_of_mem_head? hq) hp h]
    · exact fun h => ⟨p, h, rfl⟩
  rw [hgroup, hstarts, hfirst]

end

/-- The contents of the physical lines, as far as they are not empty, fall into groups that stand one
behind another. Each group is a logical line: its contents joined by spaces, under the number of the
first. A content starts a group exactly if it is the first of all or its line starts a logical line. So
the joined logical lines are the joined contents, and their numbers increase. -/
theorem logicalLines_fold (text : List Char) :
    ∃ (contents : List (List Char)) (groups : List (List (List Char × Nat))),
      (∀ other, List.Forall₂ IsContent (lines text) other ↔ other = contents) ∧
      groups.flatten = (contents.zipIdx 1).filter (fun c => !c.1.isEmpty) ∧
      List.Forall₂ (fun group line => line.text = [' '].intercalate (group.map Prod.fst) ∧
        group.head?.map Prod.snd = some line.number) groups (logicalLines text) ∧
      (∀ c ∈ groups.flatten, (∃ group ∈ groups, group.head? = some c) ↔
        groups.flatten.head? = some c ∨ StartsLine (lines text) c.2) ∧
      [' '].intercalate ((logicalLines text).map LogicalLine.text) =
        [' '].intercalate (contents.filter fun c => !c.isEmpty) ∧
      (logicalLines text).Pairwise fun line other => line.number < other.number := by
  obtain ⟨ps, hps⟩ : ∃ ps, pieces 1 false ((lines text).map .ofText) = ps := ⟨_, rfl⟩
  have hlogical : logicalLines text = (runs ps).map .ofRun := by rw [logicalLines, hps]
  have hnumbered := map_numbered_pieces 1 false ((lines text).map .ofText)
  have hcontents := map_content_pieces 1 false ((lines text).map .ofText)
  rw [hps, List.map_map] at hnumbered hcontents
  have hflatten : ((runs ps).map fun r => (r.1 :: r.2).map Piece.numbered).flatten =
      ps.map Piece.numbered := by
    rw [← List.flatMap_def, ← List.map_flatMap, flatMap_runs]
  refine ⟨(lines text).map fun raw => (PhysicalLine.ofText raw).content,
    (runs ps).map fun r => (r.1 :: r.2).map Piece.numbered, fun other => forall₂_isContent_iff,
    hflatten.trans hnumbered, ?_, ?_, ?_, ?_⟩
  · -- each run is a group
    rw [hlogical, List.forall₂_map_left_iff, List.forall₂_map_right_iff, List.forall₂_same]
    refine fun r _ => ⟨?_, rfl⟩
    rw [text_ofRun, List.map_map]
    rfl
  · -- where groups start
    rw [hflatten]
    intro c hc
    obtain ⟨p, hp, rfl⟩ := List.mem_map.1 hc
    have hgroup : (∃ group ∈ (runs ps).map fun r => (r.1 :: r.2).map Piece.numbered,
        group.head? = some p.numbered) ↔ ∃ r ∈ runs ps, r.1.numbered = p.numbered := by simp
    rw [hgroup, ← hps]
    rw [← hps] at hp
    exact exists_group_iff hp
  · -- the joined texts
    have hgroups : ∀ g ∈ (runs ps).map fun r => (r.1 :: r.2).map Piece.content, g ≠ [] := by
      intro g hg
      obtain ⟨r, -, rfl⟩ := List.mem_map.1 hg
      exact List.cons_ne_nil _ _
    have hjoined := intercalate_space_flatten hgroups
    rw [← List.flatMap_def, ← List.map_flatMap, flatMap_runs, hcontents, List.map_map] at hjoined
    rw [hlogical, List.map_map]
    simpa only [Function.comp_def, text_ofRun] using hjoined
  · -- the numbers
    have hnumbers := pairwise_number_pieces 1 false ((lines text).map .ofText)
    rw [hps] at hnumbers
    have hheads := List.pairwise_map.1 (hnumbers.sublist (map_fst_runs_sublist ps))
    rw [hlogical]
    exact List.pairwise_map.2 hheads

/-- A line without content hands its backslash on, and a comment has none. -/
example : logicalLines "a \\ # b\n\\\nc # \\\nd".toList = [⟨1, "a c".toList⟩, ⟨4, "d".toList⟩] := by
  decide

end Etymon
