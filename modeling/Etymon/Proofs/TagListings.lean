import Etymon.Proofs.OuterBlanks
import Etymon.Proofs.TagNotation
import Etymon.Reading.Record

/-!
# Listings of tags

A bag of tags can be typed with its tags in any order, with blanks of any kind around them, and with a
colon behind a key that has no value. What such a listing says is the bag of its tags, as long as no
key is given twice; the first key that is given again is what the bag is rejected for, whatever follows.

A bag in front of a sentence or of an entry is read off its own notation, and what follows is read as if
there were no bag. Patterns are read off their notation as well.

## Main definitions

* `Reading.Listing`: a text starts with tags, one after another.

## Main results

* `Reading.tags_eq_ok_iff`: which bags are accepted.
* `Reading.tags_eq_error_repeatedTag_iff`: which bags are rejected for a repeated key.
* `Reading.pattern_render`: a pattern is read back off its notation.
* `Reading.bags_and_patterns_read_back`: what is written down is read back.
-/

namespace Etymon

open Text

namespace Reading

variable {s rest : List Char} {known bag : Tags} {key : String}

/-! ## Listings -/

/-- A text starts with tags, one after another, and goes on with what is left. -/
inductive Listing : List Char → List (String × String) → List Char → Prop
  | done (s : List Char) : Listing s [] s
  | tag {blanks written s behind : List Char} {item : String × String} {items : List (String × String)}
      (hblanks : ∀ c ∈ blanks, isBlank c = true) (hspells : Spells written item)
      (hitem : WritableItem item) (hends : EndsTag s) (hmore : Listing s items behind) :
      Listing (blanks ++ (written ++ s)) (item :: items) behind

theorem length_lt_of_spells {written : List Char} {item : String × String}
    (hspells : Spells written item) (hitem : WritableItem item) (blanks s : List Char) :
    s.length < (blanks ++ (written ++ s)).length := by
  obtain ⟨c, cs, rfl, -⟩ := exists_key_char_of_spells hspells hitem
  simp only [List.length_append, List.length_cons]
  omega

/-- What the reader of a bag finds: the brace that closes it, a tag, or neither. -/
inductive Next (s : List Char) : Prop
  | close {blanks rest : List Char} (hblanks : ∀ c ∈ blanks, isBlank c = true)
      (hs : s = blanks ++ '}' :: rest)
  | tag {blanks written rest : List Char} {item : String × String}
      (hblanks : ∀ c ∈ blanks, isBlank c = true) (hspells : Spells written item)
      (hitem : WritableItem item) (hends : EndsTag rest) (hs : s = blanks ++ (written ++ rest))
  | fault (h : ∀ fuel known, ∃ what behind, tagsWithin fuel known s = .error (.expected what behind))

theorem stops_dropWhile (p : Char → Bool) (s : List Char) :
    ∀ c ∈ (s.dropWhile p).head?, p c = false := by
  intro c hc
  have hstop := List.head?_dropWhile_not p s
  rwa [hc] at hstop

/-- A tag stands wherever a character of a key does. -/
theorem exists_tag {c : Char} (hc : isKeyChar c = true) (s : List Char) :
    ∃ written item rest, Spells written item ∧ WritableItem item ∧ EndsTag rest ∧
      c :: s = written ++ rest := by
  obtain ⟨key, hname⟩ : ∃ key : String, key.toList = (c :: s).takeWhile isKeyChar :=
    ⟨_, String.toList_ofList⟩
  have hkey : IsName isKeyChar key := by
    rw [IsName, hname]
    exact ⟨by simp [hc], fun d hd => List.mem_takeWhile_imp hd⟩
  have hsplit : key.toList ++ (c :: s).dropWhile isKeyChar = c :: s := by
    rw [hname, List.takeWhile_append_dropWhile]
  have hstop := stops_dropWhile isKeyChar (c :: s)
  by_cases hcolon : ∃ after, (c :: s).dropWhile isKeyChar = ':' :: after
  · obtain ⟨after, hafter⟩ := hcolon
    obtain ⟨value, hvalue⟩ : ∃ value : String, value.toList = after.takeWhile isValueChar :=
      ⟨_, String.toList_ofList⟩
    have hend := stops_dropWhile isValueChar after
    refine ⟨_, (key, value), after.dropWhile isValueChar, .valued key value, ⟨hkey, ?_⟩, ?_, ?_⟩
    · rw [hvalue]
      exact fun d hd => List.mem_takeWhile_imp hd
    · intro d hd
      have hd := hend d hd
      grind [isValueChar]
    · rw [hvalue, List.append_assoc, List.cons_append, List.takeWhile_append_dropWhile, ← hafter,
        hsplit]
  · refine ⟨_, (key, ""), (c :: s).dropWhile isKeyChar, .bare key, ⟨hkey, by simp⟩, ?_, hsplit.symm⟩
    intro d hd
    have hne : d ≠ ':' := by
      rintro rfl
      exact hcolon ⟨_, (List.cons_head?_tail hd).symm⟩
    have hd := hstop d hd
    grind [isKeyChar]

theorem next (s : List Char) : Next s := by
  have hblanks : ∀ c ∈ s.takeWhile isBlank, isBlank c = true := fun c hc => List.mem_takeWhile_imp hc
  have hsplit : s.takeWhile isBlank ++ trimStart s = s := List.takeWhile_append_dropWhile
  cases hstart : trimStart s with
  | nil =>
    refine .fault fun fuel known => ?_
    cases fuel with
    | zero => exact ⟨_, _, rfl⟩
    | succ fuel => exact ⟨"'\x7d'", [], by rw [tagsWithin, hstart]⟩
  | cons c after =>
    rw [hstart] at hsplit
    by_cases hclose : c = '}'
    · subst hclose
      exact .close hblanks hsplit.symm
    · cases hc : isKeyChar c with
      | true =>
        obtain ⟨written, item, rest, hspells, hitem, hends, hs⟩ := exists_tag hc after
        exact .tag hblanks hspells hitem hends (hs ▸ hsplit.symm)
      | false =>
        refine .fault fun fuel known => ?_
        cases fuel with
        | zero => exact ⟨_, _, rfl⟩
        | succ fuel =>
          refine ⟨"tag name", c :: after, ?_⟩
          rw [tagsWithin, hstart]
          split
          · next heq => exact absurd (List.cons.inj heq).1 hclose
          · next heq => cases heq
          · simp [run, hc, bind, Except.bind]

/-! ## What a listing says -/

theorem keys_cons {item : String × String} {items : List (String × String)} :
    ((item :: items).map Prod.fst).Nodup ∧
        (∀ k ∈ (item :: items).map Prod.fst, known.contains k = false) ↔
      known.contains item.1 = false ∧ (items.map Prod.fst).Nodup ∧
        ∀ k ∈ items.map Prod.fst, (known.insert item.1 item.2).contains k = false := by
  simp only [List.map_cons, List.nodup_cons, List.forall_mem_cons, ← Bool.not_eq_true,
    SortedMap.contains_insert]
  grind

theorem tagsWithin_close_blanks (fuel : Nat) (known : Tags) {blanks : List Char}
    (hblanks : ∀ c ∈ blanks, isBlank c = true) (rest : List Char) :
    tagsWithin (fuel + 1) known (blanks ++ '}' :: rest) = .ok (known, rest) := by
  rw [tagsWithin, trimStart_blanks_append hblanks, trimStart_of_not_isBlank _ (by decide)]
  rfl

/-- A bag is closed behind a listing in which no key is given twice and none is known. -/
theorem tagsWithin_eq_ok_iff {fuel : Nat} (hfuel : s.length < fuel) :
    tagsWithin fuel known s = .ok (bag, rest) ↔ ∃ items blanks,
      Listing s items (blanks ++ '}' :: rest) ∧ (∀ c ∈ blanks, isBlank c = true) ∧
      ((items.map Prod.fst).Nodup ∧ ∀ k ∈ items.map Prod.fst, known.contains k = false) ∧
      bag = items.foldl (fun m item => m.insert item.1 item.2) known := by
  constructor
  · intro h
    induction fuel generalizing known s with
    | zero => omega
    | succ fuel ih =>
      cases next s with
      | close hblanks hs =>
        rw [hs, tagsWithin_close_blanks fuel known hblanks] at h
        cases h
        exact ⟨[], _, hs ▸ .done s, hblanks, by simp, rfl⟩
      | fault hfault =>
        obtain ⟨what, behind, hfault⟩ := hfault (fuel + 1) known
        rw [hfault] at h
        cases h
      | @tag blanks _ after item hblanks hspells hitem hends hs =>
        have hlt := length_lt_of_spells hspells hitem blanks after
        subst hs
        rw [tagsWithin_tag fuel known hblanks hspells hitem hends] at h
        split at h
        · cases h
        · next hnew =>
          obtain ⟨items, last, hlisting, hlast, hkeys, hbag⟩ := ih (by omega) h
          exact ⟨item :: items, last, .tag hblanks hspells hitem hends hlisting, hlast,
            keys_cons.2 ⟨by simpa using hnew, hkeys⟩, hbag⟩
  · rintro ⟨items, last, hlisting, hlast, hkeys, rfl⟩
    induction items generalizing known s fuel with
    | nil =>
      obtain ⟨fuel, rfl⟩ : ∃ k, fuel = k + 1 := ⟨fuel - 1, by omega⟩
      cases hlisting
      exact tagsWithin_close_blanks fuel known hlast rest
    | cons item items ih =>
      obtain ⟨fuel, rfl⟩ : ∃ k, fuel = k + 1 := ⟨fuel - 1, by omega⟩
      obtain ⟨hnew, hkeys⟩ := keys_cons.1 hkeys
      cases hlisting with
      | @tag blanks _ s _ _ _ hblanks hspells hitem hends hmore =>
        have hlt := length_lt_of_spells hspells hitem blanks s
        rw [tagsWithin_tag fuel known hblanks hspells hitem hends, if_neg (by simp [hnew])]
        exact ih (by omega) hmore hkeys

/-- A bag is rejected for the first key in a listing that is given again, or that is known. -/
theorem tagsWithin_eq_error_iff {fuel : Nat} (hfuel : s.length < fuel) :
    tagsWithin fuel known s = .error (.repeatedTag key) ↔ ∃ items value rest,
      Listing s (items ++ [(key, value)]) rest ∧
      ((items.map Prod.fst).Nodup ∧ ∀ k ∈ items.map Prod.fst, known.contains k = false) ∧
      (key ∈ items.map Prod.fst ∨ known.contains key = true) := by
  constructor
  · intro h
    induction fuel generalizing known s with
    | zero => omega
    | succ fuel ih =>
      cases next s with
      | close hblanks hs =>
        rw [hs, tagsWithin_close_blanks fuel known hblanks] at h
        cases h
      | fault hfault =>
        obtain ⟨what, behind, hfault⟩ := hfault (fuel + 1) known
        rw [hfault] at h
        cases h
      | @tag blanks _ rest item hblanks hspells hitem hends hs =>
        have hlt := length_lt_of_spells hspells hitem blanks rest
        subst hs
        rw [tagsWithin_tag fuel known hblanks hspells hitem hends] at h
        split at h
        · next hknown =>
          cases h
          exact ⟨[], item.2, rest, .tag hblanks hspells hitem hends (.done rest), by simp, .inr hknown⟩
        · next hnew =>
          obtain ⟨items, value, behind, hlisting, hkeys, hagain⟩ := ih (by omega) h
          refine ⟨item :: items, value, behind, .tag hblanks hspells hitem hends hlisting,
            keys_cons.2 ⟨by simpa using hnew, hkeys⟩, ?_⟩
          rw [SortedMap.contains_insert] at hagain
          grind
  · rintro ⟨items, value, behind, hlisting, hkeys, hagain⟩
    induction items generalizing known s fuel with
    | nil =>
      obtain ⟨fuel, rfl⟩ : ∃ k, fuel = k + 1 := ⟨fuel - 1, by omega⟩
      cases hlisting with
      | tag hblanks hspells hitem hends hmore =>
        rw [tagsWithin_tag fuel known hblanks hspells hitem hends, if_pos (by simpa using hagain)]
    | cons item items ih =>
      obtain ⟨fuel, rfl⟩ : ∃ k, fuel = k + 1 := ⟨fuel - 1, by omega⟩
      obtain ⟨hnew, hkeys⟩ := keys_cons.1 hkeys
      cases hlisting with
      | @tag blanks _ s _ _ _ hblanks hspells hitem hends hmore =>
        have hlt := length_lt_of_spells hspells hitem blanks s
        rw [tagsWithin_tag fuel known hblanks hspells hitem hends, if_neg (by simp [hnew])]
        refine ih ?_ hmore hkeys ?_
        · omega
        · rw [SortedMap.contains_insert]
          grind

/-- A bag is accepted when it is a listing up to its closing brace and no key is given twice. -/
theorem tags_eq_ok_iff : tags ('{' :: s) = .ok (bag, rest) ↔ ∃ items blanks,
    Listing s items (blanks ++ '}' :: rest) ∧ (∀ c ∈ blanks, isBlank c = true) ∧
      (items.map Prod.fst).Nodup ∧ bag = .ofList items := by
  have hread : tagsWithin (s.length + 1) .empty s = .ok (bag, rest) ↔ _ :=
    tagsWithin_eq_ok_iff (Nat.lt_succ_self s.length)
  simpa [tags, SortedMap.contains, SortedMap.ofList] using hread

/-- A bag is rejected for a repeated key when it is a listing up to there and the keys before are given
once each. What follows does not matter, and the bag need not be closed. -/
theorem tags_eq_error_repeatedTag_iff : tags s = .error (.repeatedTag key) ↔
    ∃ text items value rest, s = '{' :: text ∧ Listing text (items ++ [(key, value)]) rest ∧
      (items.map Prod.fst).Nodup ∧ key ∈ items.map Prod.fst := by
  by_cases hopen : ∃ text, s = '{' :: text
  · obtain ⟨text, rfl⟩ := hopen
    have hread : tagsWithin (text.length + 1) .empty text = .error (.repeatedTag key) ↔ _ :=
      tagsWithin_eq_error_iff (Nat.lt_succ_self text.length)
    simpa [tags, SortedMap.contains] using hread
  · have hnone : tags s = .ok (.empty, s) := tags_of_head? fun c hc heq =>
      hopen ⟨_, (List.cons_head?_tail (heq ▸ hc)).symm⟩
    rw [hnone]
    constructor
    · intro h
      cases h
    · rintro ⟨text, -, -, -, rfl, -⟩
      exact absurd ⟨text, rfl⟩ hopen

/-! ## Only a bag is rejected for a repeated key -/

section

variable {α β : Type}

/-- What went wrong, if anything did, is no repeated key. -/
def Unrepeated (x : Except ReadFault α) : Prop :=
  ∀ key, x ≠ .error (.repeatedTag key)

theorem unrepeated_ok (a : α) : Unrepeated (.ok a) :=
  nofun

theorem unrepeated_expected (what : String) (rest : List Char) :
    Unrepeated (.error (.expected what rest) : Except ReadFault α) :=
  nofun

theorem Unrepeated.bind {x : Except ReadFault α} {f : α → Except ReadFault β} (hx : Unrepeated x)
    (hf : ∀ a, Unrepeated (f a)) : Unrepeated (x >>= f) := by
  intro key h
  rcases bind_eq_error_iff.1 h with h | ⟨a, -, h⟩
  · exact hx key h
  · exact hf a key h

theorem unrepeated_run (p : Char → Bool) (what : String) (s : List Char) : Unrepeated (run p what s) := by
  unfold run
  split
  · exact unrepeated_expected _ _
  · exact unrepeated_ok _

theorem unrepeated_expect (c : Char) (what : String) (s : List Char) : Unrepeated (expect c what s) := by
  unfold expect
  split
  · split
    · exact unrepeated_ok _
    · exact unrepeated_expected _ _
  · exact unrepeated_expected _ _

theorem unrepeated_era? (s : List Char) : Unrepeated (era? s) := by
  unfold era?
  split
  · exact (unrepeated_run _ _ _).bind fun _ => unrepeated_ok _
  · exact unrepeated_ok _

theorem unrepeated_scope (s : List Char) : Unrepeated (scope s) :=
  (unrepeated_expect _ _ _).bind fun _ => (unrepeated_run _ _ _).bind fun _ => unrepeated_ok _

theorem unrepeated_morphemeBody (s : List Char) : Unrepeated (morphemeBody s) :=
  (unrepeated_run _ _ _).bind fun _ => (unrepeated_era? _).bind fun _ => unrepeated_ok _

theorem unrepeated_lexemeBody (s : List Char) : Unrepeated (lexemeBody s) := by
  refine (unrepeated_run _ _ _).bind fun _ => (unrepeated_expect _ _ _).bind fun _ => ?_
  dsimp only
  split
  · exact (unrepeated_scope _).bind fun _ => unrepeated_ok _
  · exact unrepeated_ok _

theorem unrepeated_prefixesAfter (inner : List String) (fuel : Nat) (s : List Char) :
    Unrepeated (prefixesAfter inner fuel s) := by
  induction fuel generalizing inner s with
  | zero => exact unrepeated_ok _
  | succ fuel ih =>
    unfold prefixesAfter
    split
    · exact unrepeated_ok _
    · split
      · exact (unrepeated_run _ _ _).bind fun _ => (unrepeated_expect _ _ _).bind fun _ => ih _ _
      · exact unrepeated_ok _

theorem unrepeated_part {inner : Reader Word} (hinner : ∀ s, Unrepeated (inner s)) (s : List Char) :
    Unrepeated (part inner s) := by
  refine (unrepeated_prefixesAfter _ _ _).bind fun _ => Unrepeated.bind ?_ fun _ => unrepeated_ok _
  unfold stem
  split
  · exact (unrepeated_morphemeBody _).bind fun _ => unrepeated_ok _
  · exact (unrepeated_lexemeBody _).bind fun _ => unrepeated_ok _
  · exact (hinner _).bind fun _ => (unrepeated_expect _ _ _).bind fun _ => unrepeated_ok _
  · exact unrepeated_expected _ _

theorem unrepeated_joiner? (s : List Char) : Unrepeated (joiner? s) := by
  unfold joiner?
  split
  · exact (unrepeated_era? _).bind fun _ => unrepeated_ok _
  · exact (unrepeated_era? _).bind fun _ => unrepeated_ok _
  · exact unrepeated_ok _

theorem unrepeated_joins {next : Reader Word} (hnext : ∀ s, Unrepeated (next s)) (fuel : Nat)
    (w : Word) (s : List Char) : Unrepeated (joins next fuel w s) := by
  induction fuel generalizing w s with
  | zero => exact unrepeated_ok _
  | succ fuel ih =>
    refine (unrepeated_joiner? _).bind fun found => ?_
    split
    · exact unrepeated_ok _
    · exact (hnext _).bind fun _ => ih _ _

theorem unrepeated_wordWithin (depth : Nat) (s : List Char) : Unrepeated (wordWithin depth s) := by
  induction depth generalizing s with
  | zero => exact unrepeated_expected _ _
  | succ depth ih =>
    exact (unrepeated_part ih _).bind fun _ => unrepeated_joins (unrepeated_part ih) _ _ _

theorem unrepeated_words (fuel : Nat) (s : List Char) : Unrepeated (words fuel s) := by
  induction fuel generalizing s with
  | zero => exact unrepeated_ok _
  | succ fuel ih =>
    unfold words
    split
    · exact unrepeated_ok _
    · exact (unrepeated_wordWithin _ _).bind fun _ => (ih _).bind fun _ => unrepeated_ok _

theorem sentence_eq_error_repeatedTag_iff : sentence s = .error (.repeatedTag key) ↔
    tags (trimStart s) = .error (.repeatedTag key) := by
  refine bind_eq_error_iff.trans (or_iff_left ?_)
  rintro ⟨⟨bag, after⟩, -, h⟩
  refine (unrepeated_words _ _).bind (fun found => ?_) key h
  cases found
  · exact unrepeated_expected _ _
  · exact unrepeated_ok _

end

/-! ## Bags in front of sentences and entries -/

theorem map_bind {ε α β γ : Type} (x : Except ε α) (f : α → Except ε β) (g : β → γ) :
    (x >>= f).map g = x >>= fun a => (f a).map g := by
  cases x <;> rfl

theorem bind_ok {ε α β : Type} (a : α) (f : α → Except ε β) : (Except.ok a >>= f) = f a :=
  rfl

/-- More fuel than there are characters is enough for the words. -/
theorem words_of_lt {fuel fuel' : Nat} (hfuel : s.length < fuel) (hfuel' : s.length < fuel') :
    words fuel s = words fuel' s := by
  induction fuel generalizing s fuel' with
  | zero => omega
  | succ fuel ih =>
    obtain ⟨fuel', rfl⟩ : ∃ k, fuel' = k + 1 := ⟨fuel' - 1, by omega⟩
    have hle : (trimStart s).length ≤ s.length := (List.dropWhile_suffix _).length_le
    rw [words, words]
    split
    · rfl
    · cases hw : word (trimStart s) with
      | error fault => rfl
      | ok found =>
        have hlt := length_lt_of_wordWithin hw
        have hmore : words fuel found.2 = words fuel' found.2 := ih (by omega) (by omega)
        simp only [bind_ok, hmore]

theorem words_trimStart (s : List Char) :
    words ((trimStart s).length + 1) (trimStart s) = words (s.length + 1) s := by
  have hle : (trimStart s).length ≤ s.length := (List.dropWhile_suffix _).length_le
  rw [words_of_lt (Nat.lt_succ_self _) (Nat.lt_succ_of_le hle), words, words, trimStart_trimStart]

theorem toList_render_append (bag : Tags) (cs : List Char) :
    ∃ more, bag.render.toList ++ cs = '{' :: more :=
  ⟨bag.render.toList.tail ++ cs, by simp [Tags.render]⟩

/-- No bag of tags stands here. -/
def Bagless (cs : List Char) : Prop :=
  ∀ c ∈ (trimStart cs).head?, c ≠ '{'

section

variable {blanks cs : List Char}

theorem trimStart_render_append (bag : Tags) (hblanks : ∀ c ∈ blanks, isBlank c = true) (cs : List Char) :
    trimStart (blanks ++ (bag.render.toList ++ cs)) = bag.render.toList ++ cs := by
  obtain ⟨more, hmore⟩ := toList_render_append bag cs
  rw [trimStart_blanks_append hblanks, hmore, trimStart_of_not_isBlank _ (by decide)]

/-- A bag is read back behind blanks, with everything behind it left. -/
theorem tags_trimStart_render_append (hbag : bag.Writable) (hblanks : ∀ c ∈ blanks, isBlank c = true)
    (cs : List Char) : tags (trimStart (blanks ++ (bag.render.toList ++ cs))) = .ok (bag, cs) := by
  rw [trimStart_render_append bag hblanks, tags_render hbag]

theorem sentence_render_append (hbag : bag.Writable) (hblanks : ∀ c ∈ blanks, isBlank c = true)
    (hcs : Bagless cs) : sentence (blanks ++ (bag.render.toList ++ cs)) =
      (sentence cs).map fun found => { found with tags := bag } := by
  rw [sentence, sentence, tags_trimStart_render_append hbag hblanks, tags_of_head? hcs]
  simp only [bind_ok, words_trimStart, map_bind]
  cases words (cs.length + 1) cs with
  | error fault => rfl
  | ok found => cases found <;> rfl

theorem templateName?_of_head? (h : ∀ c ∈ cs.head?, c ≠ '&') : templateName? cs = .ok (none, cs) := by
  unfold templateName?
  split
  · exact absurd rfl (h '&' rfl)
  · rfl

theorem entry_render_append (hbag : bag.Writable) (hblanks : ∀ c ∈ blanks, isBlank c = true)
    (hcs : Bagless cs) (htemplate : ∀ c ∈ cs.head?, c ≠ '&') :
    entry (blanks ++ (bag.render.toList ++ cs)) = (entry cs).map fun e => { e with tags := bag } := by
  have hhead : ∀ c ∈ (blanks ++ (bag.render.toList ++ cs)).head?, c ≠ '&' := by
    obtain ⟨more, hmore⟩ := toList_render_append bag cs
    rintro c hc rfl
    cases blanks with
    | nil => simp [hmore] at hc
    | cons b blanks =>
      obtain rfl : b = '&' := by simpa using hc
      exact absurd (hblanks '&' List.mem_cons_self) (by decide)
  simp only [entry, templateName?_of_head? htemplate, templateName?_of_head? hhead, bind_ok,
    tags_trimStart_render_append hbag hblanks, tags_of_head? hcs, trimStart_trimStart, map_bind]
  rfl

end

/-! ## Patterns are read back -/

/-- A pattern is read back off its notation, where a part of a word could end. -/
theorem pattern_render {f : Frame} (hf : f.Writable) (hrest : EndsPart rest) :
    pattern (f.render.toList ++ rest) = .ok (f, rest) := by
  have hhead : ∀ c ∈ ('$' :: ((Frame.renderSuffixes f.suffixes).toList ++ rest)).head?,
      isIdentChar c = false := by
    rintro c ⟨⟩
    decide
  have htext : f.render.toList ++ rest = (Frame.renderPrefixes f.prefixes).toList ++
      '$' :: ((Frame.renderSuffixes f.suffixes).toList ++ rest) := by
    simp [Frame.render, toList_around]
  simp only [htext, pattern, framed, prefixNames_append hf.prefixes hhead, bind_ok, expect_cons_self,
    suffixNames_append hf.suffixes hrest]
  rfl

theorem toList_renderPrefixes (names : List String) : (Frame.renderPrefixes names).toList =
    names.reverse.flatMap fun name => name.toList ++ ['.'] := by
  induction names with
  | nil => rfl
  | cons name outer ih => simp [toList_renderPrefixes_cons, ih]

theorem toList_renderSuffixes (names : List String) : (Frame.renderSuffixes names).toList =
    names.flatMap fun name => '.' :: name.toList := by
  induction names with
  | nil => rfl
  | cons name outer ih => simp [toList_renderSuffixes_cons, ih]

theorem toList_render_frame (f : Frame) : f.render.toList =
    (f.prefixes.reverse.flatMap fun name => name.toList ++ ['.']) ++
      '$' :: f.suffixes.flatMap fun name => '.' :: name.toList := by
  rw [Frame.render, toList_around, toList_renderPrefixes, toList_renderSuffixes]
  rfl

/-! ## What is written down is read back -/

theorem parse_eq_error_repeatedTag_iff {text : String} :
    Sentence.parse text = .error (.repeatedTag key) ↔
      tags (trimStart text.toList) = .error (.repeatedTag key) := by
  rw [← sentence_eq_error_repeatedTag_iff, Sentence.parse]
  cases sentence text.toList with
  | ok found => simp [Except.mapError]
  | error fault => cases fault <;> simp [Except.mapError, ReadFault.toError]

/-- A bag is read back off its notation at the start of a sentence or of an entry, and the rest is read
as without it. A bag, and a sentence with it, is rejected for a repeated key exactly when the bag is a
listing up to there. A pattern is read back off its notation, in which its outermost affixes stand on
the outside. -/
theorem bags_and_patterns_read_back :
    (∀ bag : Tags, bag.Writable → ∀ blanks : List Char, (∀ c ∈ blanks, isBlank c = true) →
      ∀ cs, tags (trimStart (blanks ++ (bag.render.toList ++ cs))) = .ok (bag, cs) ∧
        (Bagless cs → sentence (blanks ++ (bag.render.toList ++ cs)) =
          (sentence cs).map fun found => { found with tags := bag }) ∧
        (Bagless cs → (∀ c ∈ cs.head?, c ≠ '&') → entry (blanks ++ (bag.render.toList ++ cs)) =
          (entry cs).map fun e => { e with tags := bag })) ∧
    (∀ s key, tags s = .error (.repeatedTag key) ↔
      ∃ text items value rest, s = '{' :: text ∧ Listing text (items ++ [(key, value)]) rest ∧
        (items.map Prod.fst).Nodup ∧ key ∈ items.map Prod.fst) ∧
    (∀ text key, Sentence.parse text = .error (.repeatedTag key) ↔
      tags (trimStart text.toList) = .error (.repeatedTag key)) ∧
    ∀ f : Frame, f.Writable →
      f.render.toList = (f.prefixes.reverse.flatMap fun name => name.toList ++ ['.']) ++
        '$' :: (f.suffixes.flatMap fun name => '.' :: name.toList) ∧
      ∀ rest, EndsPart rest → pattern (f.render.toList ++ rest) = .ok (f, rest) := by
  refine ⟨fun bag hbag blanks hblanks cs => ⟨?_, ?_, ?_⟩, ?_, ?_, ?_⟩
  · exact tags_trimStart_render_append hbag hblanks cs
  · exact sentence_render_append hbag hblanks
  · exact entry_render_append hbag hblanks
  · exact fun s key => tags_eq_error_repeatedTag_iff
  · exact fun text key => parse_eq_error_repeatedTag_iff
  · exact fun f hf => ⟨toList_render_frame f, fun rest => pattern_render hf⟩

/-- A brace in a key, a colon in a value, a tag without a value; two affixes on either side. -/
theorem bags_and_patterns_read_back_formal :
    ∃ bag : Tags, bag.items = [("a\x7bb", "c:d"), ("formal", "")] ∧
      bag.render = "\x7ba\x7bb:c:d formal\x7d" ∧
      tags ("\x7ba\x7bb:c:d formal\x7d".toList ++ " <stone>".toList) = .ok (bag, " <stone>".toList) ∧
      sentence ("\x7ba\x7bb:c:d formal\x7d".toList ++ " <stone>".toList) =
        .ok ⟨bag, [.lexeme .empty ⟨"stone", none⟩]⟩ ∧
      pattern "A.B.$.C.D".toList = .ok (⟨["B", "A"], ["C", "D"]⟩, []) := by
  have hbag : Tags.Writable ⟨[("a\x7bb", "c:d"), ("formal", "")], by decide⟩ := by
    intro item hitem
    simp only [List.mem_cons, List.not_mem_nil, or_false] at hitem
    rcases hitem with rfl | rfl
    · exact ⟨by decide, List.all_eq_true.1 rfl⟩
    · exact ⟨by decide, List.all_eq_true.1 rfl⟩
  have hframe : Frame.Writable ⟨["B", "A"], ["C", "D"]⟩ := ⟨by decide, by decide⟩
  obtain ⟨hbags, -, -, hpatterns⟩ := bags_and_patterns_read_back
  have hread := hbags _ hbag [] (List.forall_mem_nil _) " <stone>".toList
  have hword : sentence " <stone>".toList = .ok ⟨.empty, [.lexeme .empty ⟨"stone", none⟩]⟩ := by rfl
  have hbagless : Bagless " <stone>".toList := by
    rintro c ⟨⟩
    decide
  have hsentence := hread.2.1 hbagless
  rw [hword] at hsentence
  have hpattern := (hpatterns _ hframe).2 [] (by simp [EndsPart])
  exact ⟨_, rfl, by decide, hread.1, hsentence, hpattern⟩

/-- The second value of a key is no better when it is the same. -/
example : tags "\x7bscope:old formal scope:old".toList = .error (.repeatedTag "scope") := by
  rfl

end Reading

end Etymon
