import Etymon.Proofs.Lossless

/-!
# Outer blanks

The blanks around a sentence are no part of it. Nothing that a reader takes off a text ends with a
blank, so each of them reads the same when the blanks at the end of the text are missing, and what it
leaves is without them as well.

The fuel of a reader is measured by the text, and there is less of it without the blanks. Every step of
a recursion takes up a character at least, so what is given is enough for both texts.

## Main definitions

* `Reading.Leaves`: what a reader leaves is an end of the text.
* `Reading.IgnoresEnd`: a reader reads the same off a text without the blanks at its end.

## Main results

* `Reading.sentence_trim`: the blanks around a sentence can be left out.
-/

namespace Etymon

open Text

namespace Reading

section

variable {α : Type} {s rest : List Char}

/-! ## What is left -/

/-- What a reader leaves is an end of the text. -/
def Leaves (read : Reader α) : Prop :=
  ∀ ⦃s a rest⦄, read s = .ok (a, rest) → rest <:+ s

theorem TakesExactly.leaves {read : Reader α} {written : α → String} (h : TakesExactly read written) :
    Leaves read :=
  fun _ a _ hread => ⟨(written a).toList, (h hread).symm⟩

theorem leaves_stem {inner : Reader Word} (hinner : Leaves inner) : Leaves (stem inner) := by
  intro s build rest h
  unfold stem at h
  split at h
  · obtain ⟨⟨m, after⟩, hm, ⟨⟩⟩ := bind_eq_ok_iff.1 h
    exact ⟨_, (eq_of_morphemeBody hm).symm⟩
  · obtain ⟨⟨l, after⟩, hl, ⟨⟩⟩ := bind_eq_ok_iff.1 h
    exact ⟨_, (eq_of_lexemeBody hl).symm⟩
  · obtain ⟨⟨w, after⟩, hw, h⟩ := bind_eq_ok_iff.1 h
    obtain ⟨⟨_, after'⟩, hclose, ⟨⟩⟩ := bind_eq_ok_iff.1 h
    have hrest : rest <:+ trimStart after := (takesExactly_expect _ _).leaves hclose
    exact ((hrest.trans (List.dropWhile_suffix _)).trans (hinner hw)).trans (List.suffix_cons _ _)
  · cases h

theorem leaves_part {inner : Reader Word} (hinner : Leaves inner) : Leaves (part inner) := by
  intro s w rest h
  obtain ⟨⟨before, behind⟩, hbefore, h⟩ := bind_eq_ok_iff.1 h
  obtain ⟨⟨build, after⟩, hstem, ⟨⟩⟩ := bind_eq_ok_iff.1 h
  have hrest : (suffixNames after).2 <:+ after := ⟨_, (eq_suffixesWithin after.length after).symm⟩
  exact (hrest.trans (leaves_stem hinner hstem)).trans (takesExactly_prefixNames.leaves hbefore)

theorem leaves_joins {next : Reader Word} (hnext : Leaves next) (fuel : Nat) (first : Word) :
    Leaves (joins next fuel first) := by
  intro s w rest h
  induction fuel generalizing first s with
  | zero =>
    cases h
    exact List.dropWhile_suffix _
  | succ fuel ih =>
    obtain ⟨⟨j, after⟩, hj, h⟩ := bind_eq_ok_iff.1 h
    have hafter : after <:+ s := (takesExactly_joiner?.leaves hj).trans (List.dropWhile_suffix _)
    cases j with
    | none =>
      cases h
      exact hafter
    | some j =>
      obtain ⟨⟨tail, behind⟩, htail, h⟩ := bind_eq_ok_iff.1 h
      exact ((ih _ h).trans ((hnext htail).trans (List.dropWhile_suffix _))).trans hafter

theorem leaves_wordWithin (depth : Nat) : Leaves (wordWithin depth) := by
  induction depth with
  | zero =>
    intro s w rest h
    cases h
  | succ depth ih =>
    intro s w rest h
    obtain ⟨⟨first, after⟩, hfirst, h⟩ := bind_eq_ok_iff.1 h
    exact ((leaves_joins (leaves_part ih) _ _ h).trans (leaves_part ih hfirst)).trans
      (List.dropWhile_suffix _)

/-- A word is not blank, so there is less left of the text. -/
theorem length_lt_of_wordWithin {depth : Nat} {w : Word} (h : wordWithin depth s = .ok (w, rest)) :
    rest.length < s.length := by
  have hsuffix := leaves_wordWithin depth h
  have hink := takesInk_wordWithin depth h
  refine Nat.lt_of_le_of_ne hsuffix.length_le fun hlen => ink_render_ne_nil w ?_
  rw [hsuffix.eq_of_length hlen] at hink
  exact List.self_eq_append_left.1 hink

/-! ## Blanks at the end -/

/-- A reader reads the same off a text without the blanks at its end, and leaves the same without
them. -/
def IgnoresEnd (read : Reader α) : Prop :=
  ∀ ⦃s a rest⦄, read s = .ok (a, rest) → read (trimEnd s) = .ok (a, trimEnd rest)

/-- What stands at the front of a text without the blanks at its end stands there with them. -/
theorem eq_append_of_trimEnd (front : List Char) {back : List Char} (h : trimEnd s = front ++ back) :
    ∃ more, s = front ++ more := by
  obtain ⟨blanks, hs, -⟩ := exists_eq_trimEnd_append s
  exact ⟨back ++ blanks, by rw [hs, h, List.append_assoc]⟩

theorem trimEnd_ne_append (front : List Char) (h : ∀ more, s ≠ front ++ more) (back : List Char) :
    trimEnd s ≠ front ++ back := by
  intro hback
  obtain ⟨more, hs⟩ := eq_append_of_trimEnd front hback
  exact h more hs

theorem ignoresEnd_ok (a : α) : IgnoresEnd fun s => .ok (a, s) := by
  intro s _ rest h
  cases h
  rfl

/-- Readers that ignore the end can be put one behind another. -/
theorem IgnoresEnd.bind {β : Type} {first : Reader α}
    {next : α × List Char → Except ReadFault (β × List Char)} (hfirst : IgnoresEnd first)
    (hnext : ∀ a, IgnoresEnd fun s => next (a, s)) : IgnoresEnd fun s => first s >>= next := by
  intro s b rest h
  obtain ⟨⟨a, after⟩, ha, h⟩ := bind_eq_ok_iff.1 h
  exact bind_eq_ok_iff.2 ⟨_, hfirst ha, hnext a h⟩

theorem not_isBlank_of_isIdentChar (c : Char) (h : isIdentChar c = true) : isBlank c = false := by
  by_contra hblank
  rw [isIdentChar_of_isBlank (by simpa using hblank)] at h
  cases h

theorem not_isBlank_of_isFormChar (c : Char) (h : isFormChar c = true) : isBlank c = false := by
  simp_all [isFormChar]

theorem not_isBlank_of_isLexemeChar (c : Char) (h : isLexemeChar c = true) : isBlank c = false := by
  simp_all [isLexemeChar]

theorem not_isBlank_of_isKeyChar (c : Char) (h : isKeyChar c = true) : isBlank c = false := by
  simp_all [isKeyChar]

theorem not_isBlank_of_isValueChar (c : Char) (h : isValueChar c = true) : isBlank c = false := by
  simp_all [isValueChar]

theorem ignoresEnd_run {p : Char → Bool} (hp : ∀ c, p c = true → isBlank c = false) (what : String) :
    IgnoresEnd (run p what) := by
  intro s name rest h
  rw [run] at h ⊢
  rw [takeWhile_trimEnd hp, dropWhile_trimEnd hp]
  cases htake : s.takeWhile p with
  | nil =>
    rw [htake] at h
    cases h
  | cons c cs =>
    rw [htake] at h
    cases h
    rfl

theorem ignoresEnd_expect {c : Char} (hc : isBlank c = false) (what : String) :
    IgnoresEnd (expect c what) := by
  intro s u rest h
  obtain rfl : s = c :: rest := by simpa using takesExactly_expect c what h
  rw [trimEnd_cons_of_not_isBlank _ hc, expect_cons_self]

theorem ignoresEnd_era? : IgnoresEnd era? := by
  intro s era rest h
  unfold era? at h
  split at h
  · obtain ⟨⟨name, after⟩, hname, ⟨⟩⟩ := bind_eq_ok_iff.1 h
    rw [trimEnd_cons_of_not_isBlank _ (by decide)]
    exact bind_eq_ok_iff.2 ⟨_, ignoresEnd_run not_isBlank_of_isIdentChar _ hname, rfl⟩
  · next hne =>
    cases h
    unfold era?
    split
    · next heq => exact absurd heq (trimEnd_ne_append ['@'] hne _)
    · rfl

theorem ignoresEnd_scope : IgnoresEnd scope := by
  refine (ignoresEnd_expect (by decide) _).bind fun _ => ?_
  exact (ignoresEnd_run not_isBlank_of_isIdentChar _).bind fun _ => ignoresEnd_ok _

theorem ignoresEnd_morphemeBody : IgnoresEnd morphemeBody := by
  refine (ignoresEnd_run not_isBlank_of_isFormChar _).bind fun _ => ?_
  exact ignoresEnd_era?.bind fun _ => ignoresEnd_ok _

theorem ignoresEnd_lexemeBody : IgnoresEnd lexemeBody := by
  refine (ignoresEnd_run not_isBlank_of_isLexemeChar _).bind fun name => ?_
  refine (ignoresEnd_expect (by decide) _).bind fun _ => ?_
  intro s l rest h
  dsimp only at h ⊢
  split at h
  · obtain ⟨⟨owner, _⟩, howner, ⟨⟩⟩ := bind_eq_ok_iff.1 h
    have howner := ignoresEnd_scope howner
    rw [trimEnd_cons_of_not_isBlank _ (by decide)] at howner ⊢
    exact bind_eq_ok_iff.2 ⟨_, howner, rfl⟩
  · next hne =>
    cases h
    split
    · next heq => exact absurd heq (trimEnd_ne_append ['%'] hne _)
    · rfl

theorem ignoresEnd_joiner? : IgnoresEnd joiner? := by
  intro s j rest h
  unfold joiner? at h
  split at h
  · obtain ⟨⟨era, after⟩, hera, ⟨⟩⟩ := bind_eq_ok_iff.1 h
    rw [trimEnd_cons_of_not_isBlank _ (by decide), trimEnd_cons_of_not_isBlank _ (by decide)]
    exact bind_eq_ok_iff.2 ⟨_, ignoresEnd_era? hera, rfl⟩
  · obtain ⟨⟨era, after⟩, hera, ⟨⟩⟩ := bind_eq_ok_iff.1 h
    rw [trimEnd_cons_of_not_isBlank _ (by decide), trimEnd_cons_of_not_isBlank _ (by decide)]
    exact bind_eq_ok_iff.2 ⟨_, ignoresEnd_era? hera, rfl⟩
  · next hhead htail =>
    cases h
    unfold joiner?
    split
    · next heq => exact absurd heq (trimEnd_ne_append ['!', '+'] hhead _)
    · next heq => exact absurd heq (trimEnd_ne_append ['+', '!'] htail _)
    · rfl

/-! ### Affixes -/

theorem prefixesAfter_of_head? (inner : List String) (fuel : Nat)
    (h : ∀ c ∈ s.head?, isIdentChar c = false) : prefixesAfter inner fuel s = .ok (inner, s) := by
  cases fuel with
  | zero => rfl
  | succ fuel =>
    cases s with
    | nil => rfl
    | cons c s => simp [prefixesAfter, h c rfl]

/-- The length of a text is fuel enough for its prefixes, with the blanks at its end and without. -/
theorem prefixesAfter_trimEnd {inner names : List String} {fuel fuel' : Nat} (hfuel : s.length ≤ fuel)
    (hfuel' : (trimEnd s).length ≤ fuel') (h : prefixesAfter inner fuel s = .ok (names, rest)) :
    prefixesAfter inner fuel' (trimEnd s) = .ok (names, trimEnd rest) := by
  induction fuel generalizing inner s fuel' with
  | zero =>
    obtain rfl := List.eq_nil_of_length_eq_zero (Nat.le_zero.1 hfuel)
    cases h
    exact prefixesAfter_of_head? _ _ (by simp)
  | succ fuel ih =>
    cases s with
    | nil =>
      cases h
      exact prefixesAfter_of_head? _ _ (by simp)
    | cons c s =>
      cases hc : isIdentChar c with
      | false =>
        rw [prefixesAfter_of_head? _ _ (by simp [hc])] at h
        cases h
        refine prefixesAfter_of_head? _ _ fun d hd => ?_
        rw [trimEnd_cons] at hd
        split at hd <;> simp_all
      | true =>
        simp only [prefixesAfter, hc, if_true] at h
        obtain ⟨⟨name, after⟩, hname, h⟩ := bind_eq_ok_iff.1 h
        obtain ⟨⟨_, behind⟩, hdot, h⟩ := bind_eq_ok_iff.1 h
        have hname' := ignoresEnd_run not_isBlank_of_isIdentChar _ hname
        have hdot' := ignoresEnd_expect (by decide) _ hdot
        have hlen := congrArg List.length (takesExactly_run _ _ hname)
        have hlen' := congrArg List.length (takesExactly_run _ _ hname')
        have hbehind := congrArg List.length (takesExactly_expect _ _ hdot)
        have hbehind' := congrArg List.length (takesExactly_expect _ _ hdot')
        simp only [List.length_append, String.toList_singleton, List.length_singleton] at *
        obtain ⟨fuel', rfl⟩ : ∃ k, fuel' = k + 1 := ⟨fuel' - 1, by omega⟩
        have hrest : prefixesAfter (name :: inner) fuel' (trimEnd behind) = .ok (names, trimEnd rest) :=
          ih (by omega) (by omega) h
        rw [trimEnd_cons_of_not_isBlank _ (not_isBlank_of_isIdentChar c hc)] at hname' ⊢
        simp only [prefixesAfter, hc, if_true]
        exact bind_eq_ok_iff.2 ⟨_, hname', bind_eq_ok_iff.2 ⟨_, hdot', hrest⟩⟩

theorem ignoresEnd_prefixNames : IgnoresEnd prefixNames :=
  fun _ _ _ h => prefixesAfter_trimEnd (Nat.le_refl _) (Nat.le_refl _) h

/-- A dot that no name follows is left alone, as is everything but a dot. -/
theorem suffixesWithin_of_not_dot (fuel : Nat)
    (h : ∀ c more, s = '.' :: c :: more → isIdentChar c = false) : suffixesWithin fuel s = ([], s) := by
  cases fuel with
  | zero => rfl
  | succ fuel =>
    unfold suffixesWithin
    split
    · next c more => simp [h c more rfl]
    · rfl

theorem suffixesWithin_trimEnd {fuel fuel' : Nat} (hfuel : s.length ≤ fuel)
    (hfuel' : (trimEnd s).length ≤ fuel') :
    suffixesWithin fuel' (trimEnd s) =
      ((suffixesWithin fuel s).1, trimEnd (suffixesWithin fuel s).2) := by
  induction fuel generalizing s fuel' with
  | zero =>
    obtain rfl := List.eq_nil_of_length_eq_zero (Nat.le_zero.1 hfuel)
    exact suffixesWithin_of_not_dot _ (by simp)
  | succ fuel ih =>
    by_cases hdot : ∃ c more, s = '.' :: c :: more ∧ isIdentChar c = true
    · obtain ⟨c, more, rfl, hc⟩ := hdot
      have hblank := not_isBlank_of_isIdentChar c hc
      have htrim : trimEnd ('.' :: c :: more) = '.' :: c :: trimEnd more := by
        rw [trimEnd_cons_of_not_isBlank _ (by decide), trimEnd_cons_of_not_isBlank _ hblank]
      rw [htrim] at hfuel' ⊢
      obtain ⟨fuel', rfl⟩ : ∃ k, fuel' = k + 1 :=
        ⟨fuel' - 1, by simp only [List.length_cons] at hfuel'; omega⟩
      have hle := (List.dropWhile_suffix isIdentChar (l := more)).length_le
      have hle' := (List.dropWhile_suffix isIdentChar (l := trimEnd more)).length_le
      have hdrop := dropWhile_trimEnd not_isBlank_of_isIdentChar more
      simp only [List.length_cons] at hfuel hfuel'
      have hrest : suffixesWithin fuel' (trimEnd (more.dropWhile isIdentChar)) = _ :=
        ih (by omega) (by rw [← hdrop]; omega)
      simp [suffixesWithin, hc, takeWhile_trimEnd not_isBlank_of_isIdentChar, hdrop, hrest]
    · have hstop : ∀ c more, s = '.' :: c :: more → isIdentChar c = false := fun c more hs =>
        Bool.eq_false_iff.2 fun hc => hdot ⟨c, more, hs, hc⟩
      rw [suffixesWithin_of_not_dot _ hstop, suffixesWithin_of_not_dot _ fun c more hs => ?_]
      obtain ⟨back, hback⟩ := eq_append_of_trimEnd ['.', c] hs
      exact hstop c back hback

theorem suffixNames_trimEnd (s : List Char) :
    suffixNames (trimEnd s) = ((suffixNames s).1, trimEnd (suffixNames s).2) :=
  suffixesWithin_trimEnd (Nat.le_refl _) (Nat.le_refl _)

/-! ### Words -/

/-- Two readers of words, which may open quotes to different depths, read the same off a text and off the
text without the blanks at its end, as long as the latter is shorter than a bound. -/
def Alike (bound : Nat) (read read' : Reader Word) : Prop :=
  ∀ ⦃s w rest⦄, (trimEnd s).length < bound → read s = .ok (w, rest) →
    read' (trimEnd s) = .ok (w, trimEnd rest)

theorem stem_trimEnd {inner inner' : Reader Word} {bound : Nat} (hinner : Alike bound inner inner')
    (hbound : (trimEnd s).length < bound + 1) {build : Frame → Word}
    (h : stem inner s = .ok (build, rest)) : stem inner' (trimEnd s) = .ok (build, trimEnd rest) := by
  unfold stem at h
  split at h
  · obtain ⟨⟨m, after⟩, hm, ⟨⟩⟩ := bind_eq_ok_iff.1 h
    rw [trimEnd_cons_of_not_isBlank _ (by decide)]
    exact bind_eq_ok_iff.2 ⟨_, ignoresEnd_morphemeBody hm, rfl⟩
  · obtain ⟨⟨l, after⟩, hl, ⟨⟩⟩ := bind_eq_ok_iff.1 h
    rw [trimEnd_cons_of_not_isBlank _ (by decide)]
    exact bind_eq_ok_iff.2 ⟨_, ignoresEnd_lexemeBody hl, rfl⟩
  · next s =>
    obtain ⟨⟨w, after⟩, hw, h⟩ := bind_eq_ok_iff.1 h
    obtain ⟨⟨_, after'⟩, hclose, ⟨⟩⟩ := bind_eq_ok_iff.1 h
    rw [trimEnd_cons_of_not_isBlank _ (by decide), List.length_cons] at hbound
    have hclose' := ignoresEnd_expect (by decide) _ hclose
    rw [trimEnd_cons_of_not_isBlank _ (by decide)]
    refine bind_eq_ok_iff.2 ⟨_, hinner (by omega) hw, bind_eq_ok_iff.2 ⟨((), trimEnd rest), ?_, rfl⟩⟩
    rw [trimStart_trimEnd]
    exact hclose'
  · cases h

theorem Alike.part {inner inner' : Reader Word} {bound : Nat} (hinner : Alike bound inner inner') :
    Alike (bound + 1) (Reading.part inner) (Reading.part inner') := by
  intro s w rest hbound h
  obtain ⟨⟨before, behind⟩, hbefore, h⟩ := bind_eq_ok_iff.1 h
  obtain ⟨⟨build, after⟩, hstem, ⟨⟩⟩ := bind_eq_ok_iff.1 h
  have hbefore' := ignoresEnd_prefixNames hbefore
  have hle := (takesExactly_prefixNames.leaves hbefore').length_le
  refine bind_eq_ok_iff.2 ⟨_, hbefore', bind_eq_ok_iff.2 ⟨_, stem_trimEnd hinner (by omega) hstem, ?_⟩⟩
  dsimp only
  rw [suffixNames_trimEnd]
  rfl

theorem length_lt_of_joiner? {j : Joiner} (h : joiner? s = .ok (some j, rest)) :
    rest.length < s.length := by
  have hs := takesExactly_joiner? h
  obtain ⟨_ | _, era⟩ := j <;> simp [hs, Joiner.render, Stress.render] <;> omega

theorem joins_nil (next : Reader Word) (fuel : Nat) (first : Word) :
    joins next fuel first [] = .ok (first, []) := by
  cases fuel <;> rfl

/-- The length of a text is fuel enough for its joins, with the blanks at its end and without. -/
theorem joins_trimEnd {next next' : Reader Word} {bound fuel fuel' : Nat} {first w : Word}
    (hnext : Alike bound next next') (hleaves : Leaves next) (hleaves' : Leaves next')
    (hbound : (trimEnd s).length < bound) (hfuel : s.length ≤ fuel)
    (hfuel' : (trimEnd s).length ≤ fuel') (h : joins next fuel first s = .ok (w, rest)) :
    joins next' fuel' first (trimEnd s) = .ok (w, trimEnd rest) := by
  induction fuel generalizing first s fuel' with
  | zero =>
    obtain rfl := List.eq_nil_of_length_eq_zero (Nat.le_zero.1 hfuel)
    cases h
    exact joins_nil _ _ _
  | succ fuel ih =>
    obtain ⟨⟨j, after⟩, hj, h⟩ := bind_eq_ok_iff.1 h
    have hj' : joiner? (trimStart (trimEnd s)) = .ok (j, trimEnd after) := by
      rw [trimStart_trimEnd]
      exact ignoresEnd_joiner? hj
    cases fuel' with
    | zero =>
      -- nothing but blanks is left, so there is no joiner
      rw [List.eq_nil_of_length_eq_zero (Nat.le_zero.1 hfuel')] at hj' ⊢
      obtain ⟨rfl, hafter⟩ := Prod.mk.inj (Except.ok.inj hj')
      cases h
      rw [← hafter, joins_nil]
      rfl
    | succ fuel' =>
      refine bind_eq_ok_iff.2 ⟨_, hj', ?_⟩
      cases j with
      | none =>
        cases h
        rfl
      | some j =>
        obtain ⟨⟨tail, behind⟩, htail, h⟩ := bind_eq_ok_iff.1 h
        have hlt := length_lt_of_joiner? hj
        have hlt' := length_lt_of_joiner? hj'
        have hle : ∀ t : List Char, (trimStart t).length ≤ t.length :=
          fun t => (List.dropWhile_suffix _).length_le
        have hs := hle s
        have hs' := hle (trimEnd s)
        have hafter := hle after
        have hafter' := hle (trimEnd after)
        rw [trimStart_trimEnd] at hafter'
        have htail' : next' (trimStart (trimEnd after)) = .ok (tail, trimEnd behind) := by
          rw [trimStart_trimEnd]
          exact hnext (show (trim after).length < bound by omega) htail
        have hbehind := (hleaves htail).length_le
        have hbehind' := (hleaves' htail').length_le
        rw [trimStart_trimEnd] at hbehind'
        exact bind_eq_ok_iff.2 ⟨_, htail', ih (by omega) (by omega) (by omega) h⟩

theorem wordWithin_alike (depth depth' : Nat) : Alike depth' (wordWithin depth) (wordWithin depth') := by
  induction depth generalizing depth' with
  | zero =>
    intro s w rest _ h
    cases h
  | succ depth ih =>
    intro s w rest hbound h
    cases depth' with
    | zero => omega
    | succ depth' =>
      have hpart := (ih depth').part
      have hleaves := leaves_part (leaves_wordWithin depth)
      have hleaves' := leaves_part (leaves_wordWithin depth')
      obtain ⟨⟨first, after⟩, hfirst, h⟩ := bind_eq_ok_iff.1 h
      have hstart : (trimStart (trimEnd s)).length ≤ (trimEnd s).length :=
        (List.dropWhile_suffix _).length_le
      have hfirst' : part (wordWithin depth') (trimStart (trimEnd s)) = .ok (first, trimEnd after) := by
        rw [trimStart_trimEnd] at hstart ⊢
        exact hpart (show (trim s).length < depth' + 1 by omega) hfirst
      have hafter := (hleaves' hfirst').length_le
      exact bind_eq_ok_iff.2 ⟨_, hfirst', joins_trimEnd hpart hleaves hleaves' (by omega)
        (Nat.le_refl _) (Nat.le_refl _) h⟩

theorem ignoresEnd_word : IgnoresEnd word :=
  fun s _ _ h => wordWithin_alike (s.length + 1) _ (Nat.lt_succ_self _) h

/-- A word takes up at least one character, so more fuel than there are characters is enough. -/
theorem words_trimEnd {fuel fuel' : Nat} {found : List Word} (hfuel : s.length < fuel)
    (hfuel' : (trimEnd s).length < fuel') (h : words fuel s = .ok found) :
    words fuel' (trimEnd s) = .ok found := by
  induction fuel generalizing s fuel' found with
  | zero => omega
  | succ fuel ih =>
    obtain ⟨fuel', rfl⟩ : ∃ k, fuel' = k + 1 := ⟨fuel' - 1, by omega⟩
    rw [words] at h ⊢
    rw [trimStart_trimEnd, trim]
    have hle : (trimStart s).length ≤ s.length := (List.dropWhile_suffix _).length_le
    have hle' : (trimEnd (trimStart s)).length ≤ (trimEnd s).length := by
      have hsuffix : trimStart (trimEnd s) <:+ trimEnd s := List.dropWhile_suffix _
      rw [trimStart_trimEnd] at hsuffix
      exact hsuffix.length_le
    split at h
    · next hnil =>
      cases h
      rw [hnil]
      rfl
    · next hne =>
      obtain ⟨⟨w, after⟩, hw, h⟩ := bind_eq_ok_iff.1 h
      obtain ⟨more, hmore, ⟨⟩⟩ := bind_eq_ok_iff.1 h
      have hw' := ignoresEnd_word hw
      have hlt := length_lt_of_wordWithin hw
      have hlt' := length_lt_of_wordWithin hw'
      split
      · next hnil =>
        rw [hnil] at hlt'
        cases hlt'
      · exact bind_eq_ok_iff.2 ⟨_, hw', bind_eq_ok_iff.2 ⟨_, ih (by omega) (by omega) hmore, rfl⟩⟩

/-! ### Tags -/

theorem tagValue_trimEnd (s : List Char) :
    tagValue (trimEnd s) = ((tagValue s).1, trimEnd (tagValue s).2) := by
  by_cases hcolon : ∃ more, s = ':' :: more
  · obtain ⟨more, rfl⟩ := hcolon
    rw [trimEnd_cons_of_not_isBlank _ (by decide)]
    simp [tagValue, takeWhile_trimEnd not_isBlank_of_isValueChar,
      dropWhile_trimEnd not_isBlank_of_isValueChar]
  · have hnone : ∀ t : List Char, (∀ more, t ≠ ':' :: more) → tagValue t = ("", t) := by
      intro t ht
      unfold tagValue
      split
      · exact absurd rfl (ht _)
      · rfl
    have hplain : ∀ more, s ≠ ':' :: more := fun more hs => hcolon ⟨more, hs⟩
    rw [hnone s hplain, hnone (trimEnd s) (trimEnd_ne_append [':'] hplain)]

theorem length_tagValue_le (s : List Char) : (tagValue s).2.length ≤ s.length := by
  unfold tagValue
  split
  · exact (List.dropWhile_suffix _).length_le.trans (Nat.le_succ _)
  · exact Nat.le_refl _

theorem length_lt_of_run {p : Char → Bool} {what name : String} (h : run p what s = .ok (name, rest)) :
    rest.length < s.length := by
  have hlen := congrArg List.length (takesExactly_run p what h)
  have hpos := List.length_pos_of_ne_nil (isName_of_run h).1
  rw [List.length_append] at hlen
  simp only [id] at hlen
  omega

/-- A tag takes up at least one character, so more fuel than there are characters is enough. -/
theorem tagsWithin_trimEnd {fuel fuel' : Nat} {known bag : Tags} (hfuel' : (trimEnd s).length < fuel')
    (h : tagsWithin fuel known s = .ok (bag, rest)) :
    tagsWithin fuel' known (trimEnd s) = .ok (bag, trimEnd rest) := by
  induction fuel generalizing s fuel' known with
  | zero => cases h
  | succ fuel ih =>
    obtain ⟨fuel', rfl⟩ : ∃ k, fuel' = k + 1 := ⟨fuel' - 1, by omega⟩
    rw [tagsWithin] at h ⊢
    have hle : (trimStart (trimEnd s)).length ≤ (trimEnd s).length :=
      (List.dropWhile_suffix _).length_le
    rw [trimStart_trimEnd, trim] at hle ⊢
    split at h
    · next s' hs =>
      cases h
      rw [hs, trimEnd_cons_of_not_isBlank _ (by decide)]
      rfl
    · cases h
    · next hclose hend =>
      obtain ⟨⟨key, after⟩, hkey, h⟩ := bind_eq_ok_iff.1 h
      have hkey' := ignoresEnd_run not_isBlank_of_isKeyChar _ hkey
      have hlt := length_lt_of_run hkey'
      have hvalue := tagValue_trimEnd after
      have hrest := length_tagValue_le (trimEnd after)
      dsimp only at h
      split at h
      · cases h
      · next hnew =>
        split
        · next hs => exact absurd hs (trimEnd_ne_append ['}'] hclose _)
        · next hs =>
          rw [hs] at hlt
          cases hlt
        · refine bind_eq_ok_iff.2 ⟨_, hkey', ?_⟩
          dsimp only
          rw [if_neg hnew, hvalue]
          rw [hvalue] at hrest
          exact ih (Nat.lt_of_le_of_lt hrest (by omega)) h

theorem ignoresEnd_tags : IgnoresEnd tags := by
  intro s bag rest h
  unfold tags at h
  split at h
  · rw [trimEnd_cons_of_not_isBlank _ (by decide)]
    exact tagsWithin_trimEnd (Nat.lt_succ_self _) h
  · next hopen =>
    cases h
    unfold tags
    split
    · next heq => exact absurd heq (trimEnd_ne_append ['{'] hopen _)
    · rfl

/-- The blanks around a sentence can be left out. -/
theorem sentence_trim {found : Sentence} (h : sentence s = .ok found) :
    sentence (trim s) = .ok found := by
  obtain ⟨⟨bag, after⟩, htags, h⟩ := bind_eq_ok_iff.1 h
  obtain ⟨words, hwords, h⟩ := bind_eq_ok_iff.1 h
  have htrim : trimStart (trim s) = trimEnd (trimStart s) := by
    rw [← trimStart_trimEnd, trimStart_trimStart, trimStart_trimEnd, trim]
  refine bind_eq_ok_iff.2 ⟨(bag, trimEnd after), ?_, bind_eq_ok_iff.2 ⟨words, ?_, h⟩⟩
  · rw [htrim]
    exact ignoresEnd_tags htags
  · exact words_trimEnd (Nat.lt_succ_self _) (Nat.lt_succ_self _) hwords

end

end Reading

end Etymon
