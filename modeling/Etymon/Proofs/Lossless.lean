import Etymon.Proofs.Notation

/-!
# Reading loses no character

A reader takes a piece off the front of a text. Names, eras, joiners and affixes are taken exactly as
they are written. Around a stem quotes may be dropped, and blanks may stand between all parts; up to
these, what is taken off a text is the notation of what is read.

## Main definitions

* `Reading.ink`: a text without its blanks and double quotes.
* `Reading.TakesExactly`: a reader takes the notation of what it reads.
* `Reading.TakesInk`: a reader takes this notation up to blanks and quotes.

## Main results

* `Reading.takesInk_wordWithin`: the reader of words takes their notation.
* `Sentence.ink_of_parse`: no character of a sentence is dropped, moved or invented.
-/

namespace Etymon

open Text

namespace Reading

/-! ## Blanks and quotes -/

/-- Whether a character is neither a blank nor a double quote. -/
def isInk (c : Char) : Bool :=
  !isBlank c && c != '"'

/-- A text without its blanks and double quotes. -/
def ink (s : List Char) : List Char :=
  s.filter isInk

@[simp] theorem ink_nil : ink [] = [] := rfl

@[simp] theorem ink_append (s t : List Char) : ink (s ++ t) = ink s ++ ink t :=
  List.filter_append s t

@[simp] theorem ink_flatMap {α : Type} (f : α → List Char) (as : List α) :
    ink (as.flatMap f) = as.flatMap fun a => ink (f a) :=
  List.filter_flatMap

theorem ink_cons_of_isInk {c : Char} (h : isInk c = true) (s : List Char) :
    ink (c :: s) = c :: ink s :=
  List.filter_cons_of_pos h

theorem ink_cons_of_not_isInk {c : Char} (h : isInk c = false) (s : List Char) :
    ink (c :: s) = ink s :=
  List.filter_cons_of_neg (by simp [h])

@[simp] theorem ink_cons_space (s : List Char) : ink (' ' :: s) = ink s :=
  ink_cons_of_not_isInk (by decide) s

@[simp] theorem ink_cons_quote (s : List Char) : ink ('"' :: s) = ink s :=
  ink_cons_of_not_isInk (by decide) s

@[simp] theorem ink_trimStart (s : List Char) : ink (trimStart s) = ink s := by
  induction s with
  | nil => rfl
  | cons c s ih =>
    by_cases hc : isBlank c = true
    · have hink : isInk c = false := by simp [isInk, hc]
      rw [ink_cons_of_not_isInk hink, ← ih, trimStart, trimStart, List.dropWhile_cons_of_pos hc]
    · rw [trimStart_of_not_isBlank s (Bool.eq_false_iff.2 hc)]

@[simp] theorem ink_quoteIf (needed : Bool) (s : String) :
    ink (quoteIf needed s).toList = ink s.toList := by
  cases needed <;> simp

/-- A text leaves at least one character behind. -/
theorem length_ink_le (s : List Char) : (ink s).length ≤ s.length :=
  List.length_filter_le isInk s

/-! ## The ink of words -/

theorem ink_around (f : Frame) (stem : String) : ink (f.around stem).toList =
    ink (Frame.renderPrefixes f.prefixes).toList ++
      (ink stem.toList ++ ink (Frame.renderSuffixes f.suffixes).toList) := by
  rw [toList_around, ink_append, ink_append]

theorem ink_render_join (h : Word) (j : Joiner) (t : Word) :
    ink (Word.join h j t).render.toList =
      ink h.render.toList ++ (ink j.render.toList ++ ink t.render.toList) := by
  simp [toList_render_join, side]

/-- The notation of a word is not blank. -/
theorem ink_render_ne_nil (w : Word) : ink w.render.toList ≠ [] := by
  induction w with
  | morpheme f m =>
    rw [Word.render, ink_around, toList_render_morpheme, ink_cons_of_isInk (by decide)]
    simp
  | lexeme f l =>
    rw [Word.render, ink_around, toList_render_lexeme, ink_cons_of_isInk (by decide)]
    simp
  | bracket f w ih =>
    rw [Word.render, ink_around, ink_quoteIf]
    simp [ih]
  | join h j t ihHead _ =>
    rw [ink_render_join]
    simp [ihHead]

/-! ## What is taken exactly -/

/-- A reader takes the notation of what it reads off a text, and nothing else. -/
def TakesExactly {α : Type} (read : Reader α) (written : α → String) : Prop :=
  ∀ ⦃s a rest⦄, read s = .ok (a, rest) → s = (written a).toList ++ rest

theorem takesExactly_run (p : Char → Bool) (what : String) : TakesExactly (run p what) id := by
  intro s name rest h
  unfold run at h
  split at h
  · cases h
  · cases h
    simp [List.takeWhile_append_dropWhile]

theorem takesExactly_expect (c : Char) (what : String) :
    TakesExactly (expect c what) fun _ => String.singleton c := by
  intro s _ rest h
  unfold expect at h
  split at h
  · next d s =>
    split at h
    · next heq =>
      cases h
      simp [heq]
    · cases h
  · cases h

theorem takesExactly_era? : TakesExactly era? renderEra := by
  intro s era rest h
  unfold era? at h
  split at h
  · obtain ⟨⟨name, after⟩, hname, ⟨⟩⟩ := bind_eq_ok_iff.1 h
    simp [takesExactly_run _ _ hname]
  · cases h
    simp

theorem takesExactly_scope : TakesExactly scope Scope.render := by
  intro s owner rest h
  obtain ⟨⟨_, after⟩, hmark, h⟩ := bind_eq_ok_iff.1 h
  obtain ⟨⟨name, after⟩, hname, ⟨⟩⟩ := bind_eq_ok_iff.1 h
  simp [takesExactly_expect _ _ hmark, takesExactly_run _ _ hname, Scope.render]

/-- Behind the star of a morpheme stands the rest of its notation. -/
theorem eq_of_morphemeBody {s rest : List Char} {m : Morpheme} (h : morphemeBody s = .ok (m, rest)) :
    '*' :: s = m.render.toList ++ rest := by
  obtain ⟨⟨form, after⟩, hform, h⟩ := bind_eq_ok_iff.1 h
  obtain ⟨⟨era, after⟩, hera, ⟨⟩⟩ := bind_eq_ok_iff.1 h
  simp [toList_render_morpheme, takesExactly_run _ _ hform, takesExactly_era? hera]

/-- Behind the opening bracket of a lexeme stands the rest of its notation. -/
theorem eq_of_lexemeBody {s rest : List Char} {l : Lexeme} (h : lexemeBody s = .ok (l, rest)) :
    '<' :: s = l.render.toList ++ rest := by
  obtain ⟨⟨name, after⟩, hname, h⟩ := bind_eq_ok_iff.1 h
  obtain ⟨⟨_, after⟩, hclose, h⟩ := bind_eq_ok_iff.1 h
  have hs : s = name.toList ++ '>' :: after := by
    simp [takesExactly_run _ _ hname, takesExactly_expect _ _ hclose]
  dsimp only at h
  split at h
  · obtain ⟨⟨owner, _⟩, howner, ⟨⟩⟩ := bind_eq_ok_iff.1 h
    simp [toList_render_lexeme, hs, takesExactly_scope howner, Scope.render]
  · cases h
    simp [toList_render_lexeme, hs]

/-- The prefixes read so far and the text that is left make up the text from its start. -/
theorem eq_of_prefixesAfter {inner names : List String} {fuel : Nat} {s rest : List Char}
    (h : prefixesAfter inner fuel s = .ok (names, rest)) :
    (Frame.renderPrefixes inner).toList ++ s = (Frame.renderPrefixes names).toList ++ rest := by
  induction fuel generalizing inner s with
  | zero => cases h; rfl
  | succ fuel ih =>
    unfold prefixesAfter at h
    split at h
    · cases h; rfl
    · split at h
      · obtain ⟨⟨name, after⟩, hname, h⟩ := bind_eq_ok_iff.1 h
        obtain ⟨⟨_, after⟩, hdot, h⟩ := bind_eq_ok_iff.1 h
        rw [← ih h, toList_renderPrefixes_cons, takesExactly_run _ _ hname,
          takesExactly_expect _ _ hdot]
        simp
      · cases h; rfl

theorem takesExactly_prefixNames : TakesExactly prefixNames Frame.renderPrefixes := by
  intro s names rest h
  exact eq_of_prefixesAfter h

theorem eq_suffixesWithin (fuel : Nat) (s : List Char) :
    s = (Frame.renderSuffixes (suffixesWithin fuel s).1).toList ++ (suffixesWithin fuel s).2 := by
  induction fuel generalizing s with
  | zero => rfl
  | succ fuel ih =>
    unfold suffixesWithin
    split
    · next c rest =>
      split
      · rw [toList_renderSuffixes_cons, List.cons_append, List.append_assoc, ← ih,
          String.toList_ofList, List.takeWhile_append_dropWhile]
      · rfl
    · rfl

theorem takesExactly_joiner? : TakesExactly joiner? fun j => (j.map Joiner.render).getD "" := by
  intro s j rest h
  unfold joiner? at h
  split at h
  · obtain ⟨⟨era, after⟩, hera, ⟨⟩⟩ := bind_eq_ok_iff.1 h
    simp [takesExactly_era? hera, Joiner.render, Stress.render]
  · obtain ⟨⟨era, after⟩, hera, ⟨⟩⟩ := bind_eq_ok_iff.1 h
    simp [takesExactly_era? hera, Joiner.render, Stress.render]
  · cases h
    simp

/-! ## What is taken up to blanks and quotes -/

/-- A reader takes the notation of the words it reads off a text, up to blanks and quotes. -/
def TakesInk (read : Reader Word) : Prop :=
  ∀ ⦃s w rest⦄, read s = .ok (w, rest) → ink s = ink w.render.toList ++ ink rest

/-- A stem is taken up to its quotes, whatever affixes are put around it. -/
theorem exists_ink_of_stem {inner : Reader Word} (hinner : TakesInk inner) {s rest : List Char}
    {build : Frame → Word} (h : stem inner s = .ok (build, rest)) :
    ∃ core, ink s = core ++ ink rest ∧ ∀ f : Frame, ink (build f).render.toList =
      ink (Frame.renderPrefixes f.prefixes).toList ++
        (core ++ ink (Frame.renderSuffixes f.suffixes).toList) := by
  unfold stem at h
  split at h
  · obtain ⟨⟨m, after⟩, hm, ⟨⟩⟩ := bind_eq_ok_iff.1 h
    exact ⟨ink m.render.toList, by rw [eq_of_morphemeBody hm, ink_append],
      fun f => ink_around f m.render⟩
  · obtain ⟨⟨l, after⟩, hl, ⟨⟩⟩ := bind_eq_ok_iff.1 h
    exact ⟨ink l.render.toList, by rw [eq_of_lexemeBody hl, ink_append],
      fun f => ink_around f l.render⟩
  · obtain ⟨⟨w, after⟩, hw, h⟩ := bind_eq_ok_iff.1 h
    obtain ⟨⟨_, after'⟩, hclose, ⟨⟩⟩ := bind_eq_ok_iff.1 h
    have hrest : ink after = ink rest := by
      rw [← ink_trimStart after, takesExactly_expect _ _ hclose]
      simp
    refine ⟨ink w.render.toList, by rw [ink_cons_quote, hinner hw, hrest], fun f => ?_⟩
    dsimp only
    split
    · next hempty =>
      rw [Frame.eq_empty_of_isEmpty hempty]
      simp [Frame.empty, Frame.renderPrefixes, Frame.renderSuffixes]
    · rw [Word.render, ink_around, ink_quoteIf]
  · cases h

theorem takesInk_part {inner : Reader Word} (hinner : TakesInk inner) : TakesInk (part inner) := by
  intro s w rest h
  obtain ⟨⟨before, behind⟩, hbefore, h⟩ := bind_eq_ok_iff.1 h
  obtain ⟨⟨build, after⟩, hstem, ⟨⟩⟩ := bind_eq_ok_iff.1 h
  obtain ⟨core, hcore, hbuild⟩ := exists_ink_of_stem hinner hstem
  have hafter := congrArg ink (eq_suffixesWithin after.length after)
  rw [hbuild, takesExactly_prefixNames hbefore, ink_append, hcore, hafter, ink_append]
  simp only [List.append_assoc]

/-- What is read already and what is left make up the text from its start. -/
theorem ink_of_joins {next : Reader Word} (hnext : TakesInk next) {fuel : Nat} {first w : Word}
    {s rest : List Char} (h : joins next fuel first s = .ok (w, rest)) :
    ink first.render.toList ++ ink s = ink w.render.toList ++ ink rest := by
  induction fuel generalizing first s with
  | zero =>
    cases h
    rw [ink_trimStart]
  | succ fuel ih =>
    obtain ⟨⟨j, after⟩, hj, h⟩ := bind_eq_ok_iff.1 h
    have hs : ink s = ink ((j.map Joiner.render).getD "").toList ++ ink after := by
      rw [← ink_trimStart s, takesExactly_joiner? hj, ink_append]
    cases j with
    | none =>
      cases h
      simpa using hs
    | some j =>
      obtain ⟨⟨tail, behind⟩, htail, h⟩ := bind_eq_ok_iff.1 h
      have hafter : ink after = ink tail.render.toList ++ ink behind := by
        rw [← ink_trimStart after, hnext htail]
      rw [← ih h, ink_render_join, hs, hafter]
      simp

theorem takesInk_wordWithin (depth : Nat) : TakesInk (wordWithin depth) := by
  induction depth with
  | zero =>
    intro s w rest h
    cases h
  | succ depth ih =>
    intro s w rest h
    obtain ⟨⟨first, after⟩, hfirst, h⟩ := bind_eq_ok_iff.1 h
    have hpart := takesInk_part ih
    rw [← ink_trimStart s, hpart hfirst, ink_of_joins hpart h]

/-- The words up to the end of a text. Every word takes up at least one character, so more fuel than
there are characters is enough. -/
theorem ink_of_words {fuel : Nat} {s : List Char} {found : List Word} (hfuel : (ink s).length < fuel)
    (h : words fuel s = .ok found) : ink s = found.flatMap fun w => ink w.render.toList := by
  induction fuel generalizing s found with
  | zero => omega
  | succ fuel ih =>
    rw [← ink_trimStart s] at hfuel ⊢
    rw [words] at h
    split at h
    · next hnil =>
      cases h
      simp [hnil]
    · next hne =>
      obtain ⟨⟨w, after⟩, hw, h⟩ := bind_eq_ok_iff.1 h
      obtain ⟨more, hmore, ⟨⟩⟩ := bind_eq_ok_iff.1 h
      have hword := takesInk_wordWithin _ hw
      have hpos := List.length_pos_of_ne_nil (ink_render_ne_nil w)
      rw [hword, List.length_append] at hfuel
      rw [hword, ih (by omega) hmore, List.flatMap_cons]

theorem tags_of_head? {s : List Char} (h : ∀ c ∈ s.head?, c ≠ '{') : tags s = .ok (.empty, s) := by
  cases s with
  | nil => rfl
  | cons c s => exact tags_cons (h c rfl) s

/-- What stands behind the bag of tags is the notation of the words. -/
theorem exists_ink_of_sentence {s : List Char} {found : Sentence} (h : sentence s = .ok found) :
    ∃ rest, tags (trimStart s) = .ok (found.tags, rest) ∧
      ink rest = found.words.flatMap fun w => ink w.render.toList := by
  obtain ⟨⟨bag, rest⟩, htags, h⟩ := bind_eq_ok_iff.1 h
  obtain ⟨read, hwords, h⟩ := bind_eq_ok_iff.1 h
  split at h
  · cases h
  · cases h
    exact ⟨rest, htags, ink_of_words (Nat.lt_succ_of_le (length_ink_le rest)) hwords⟩

end Reading

open Reading

/-- A text without a bag of tags is, up to blanks and quotes, the notation of its words in their
order. -/
theorem Sentence.ink_of_parse {text : String} {sentence : Sentence}
    (h : Sentence.parse text = .ok sentence)
    (hbag : ∀ c ∈ (trimStart text.toList).head?, c ≠ '{') :
    ink text.toList = ink (sentence.words.flatMap fun w => w.render.toList) := by
  rw [Sentence.parse] at h
  cases hread : Reading.sentence text.toList with
  | error fault => simp [hread, Except.mapError] at h
  | ok found =>
    obtain rfl : found = sentence := by simpa [hread, Except.mapError] using h
    obtain ⟨rest, htags, hrest⟩ := exists_ink_of_sentence hread
    rw [tags_of_head? hbag] at htags
    have hwhole : trimStart text.toList = rest := congrArg Prod.snd (Except.ok.inj htags)
    rw [← ink_trimStart, hwhole, hrest, ink_flatMap]

/-- A plural of a quoted join, with its parts close together, and a second word right behind it. -/
theorem Sentence.ink_of_parse_close_together :
    ∃ sentence, Sentence.parse "NEG.\"<x>+!@era1*ka\".PL*na" = .ok sentence ∧
      sentence.words.map Word.render = ["NEG.\"<x> +!@era1 *ka\".PL", "*na"] ∧
      ink "NEG.\"<x>+!@era1*ka\".PL*na".toList =
        ink (sentence.words.flatMap fun w => w.render.toList) := by
  have hread : Sentence.parse "NEG.\"<x>+!@era1*ka\".PL*na" = .ok ⟨.empty,
      [.bracket ⟨["NEG"], ["PL"]⟩ (.join (.lexeme .empty ⟨"x", none⟩) ⟨.tail, some ⟨"era1"⟩⟩
        (.morpheme .empty ⟨"ka", none⟩)), .morpheme .empty ⟨"na", none⟩]⟩ := by rfl
  refine ⟨_, hread, by decide, Sentence.ink_of_parse hread fun c hc => ?_⟩
  obtain rfl : 'N' = c := Option.some.inj hc
  decide

end Etymon
