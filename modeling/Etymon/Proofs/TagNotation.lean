import Etymon.Proofs.Notation

/-!
# Written tags are read back

A bag of tags lists its items in the order of their keys. Keys and values are read up to the characters
that end them, so a bag that was read can be written down again, and what is read back is the same bag:
each item is put behind the ones in front of it.

## Main definitions

* `Tags.Writable`: the keys and values are made of the characters of their kind.

## Main results

* `Reading.tags_render`: a bag is read back off its notation.
* `Sentence.tags_writable_of_parse`: the bag of a sentence that is read is writable.
* `Sentence.parse_render_tags_append`: a bag with a plain word behind it is read back as they are.
-/

namespace Etymon

open Text Reading

/-! ## Writable tags -/

/-- The key of an item is a name, and its value may be empty. -/
structure WritableItem (item : String × String) : Prop where
  key : IsName isKeyChar item.1
  value : ∀ c ∈ item.2.toList, isValueChar c = true

def Tags.Writable (tags : Tags) : Prop :=
  ∀ item ∈ tags.items, WritableItem item

theorem Tags.Writable.insert {known : Tags} (h : known.Writable) {key value : String}
    (hitem : WritableItem (key, value)) : Tags.Writable (known.insert key value) := by
  intro other hother
  rcases mem_of_mem_insertSorted hother with rfl | hother
  · exact hitem
  · exact h other hother

namespace Reading

variable {s rest : List Char} {known bag : Tags} {item : String × String}

theorem isValueChar_of_tagValue (s : List Char) :
    ∀ c ∈ (tagValue s).1.toList, isValueChar c = true := by
  unfold tagValue
  split
  · rw [String.toList_ofList]
    exact fun c hc => List.mem_takeWhile_imp hc
  · simp

theorem writable_of_tagsWithin {fuel : Nat} (hknown : known.Writable)
    (h : tagsWithin fuel known s = .ok (bag, rest)) : bag.Writable := by
  induction fuel generalizing known s with
  | zero => cases h
  | succ fuel ih =>
    rw [tagsWithin] at h
    split at h
    · cases h
      exact hknown
    · cases h
    · obtain ⟨⟨key, s⟩, hkey, h⟩ := bind_eq_ok_iff.1 h
      dsimp only at h
      split at h
      · cases h
      · exact ih (hknown.insert ⟨isName_of_run hkey, isValueChar_of_tagValue s⟩) h

/-- A bag that is read can be written. -/
theorem writable_of_tags (h : tags s = .ok (bag, rest)) : bag.Writable := by
  have hempty : Tags.Writable .empty := fun item hitem => by cases hitem
  unfold tags at h
  split at h
  · exact writable_of_tagsWithin hempty h
  · cases h
    exact hempty

/-! ## Tags are read back -/

/-- An item ends before a blank or where the bag is closed. -/
def EndsItem (rest : List Char) : Prop :=
  ∀ c ∈ rest.head?, c = ' ' ∨ c = '}'

theorem tagsWithin_cons_space (fuel : Nat) (known : Tags) (s : List Char) :
    tagsWithin (fuel + 1) known (' ' :: s) = tagsWithin (fuel + 1) known s := by
  rw [tagsWithin, tagsWithin, trimStart_cons_space]

theorem tagsWithin_close (fuel : Nat) (known : Tags) (rest : List Char) :
    tagsWithin (fuel + 1) known ('}' :: rest) = .ok (known, rest) := by
  rw [tagsWithin, trimStart_of_not_isBlank rest (by decide)]
  rfl

/-- A tag is its key and, behind a colon, its value. The colon of an empty value can be left out. -/
inductive Spells : List Char → String × String → Prop
  | bare (key : String) : Spells key.toList (key, "")
  | valued (key value : String) : Spells (key.toList ++ ':' :: value.toList) (key, value)

/-- What can follow a tag. -/
def EndsTag (rest : List Char) : Prop :=
  ∀ c ∈ rest.head?, isBlank c = true ∨ c = '}'

theorem EndsTag.stops (h : EndsTag rest) :
    ∀ c ∈ rest.head?, isKeyChar c = false ∧ isValueChar c = false ∧ c ≠ ':' := by
  intro c hc
  rcases h c hc with hblank | rfl
  · refine ⟨by simp [isKeyChar, hblank], by simp [isValueChar, hblank], ?_⟩
    rintro rfl
    exact absurd hblank (by decide)
  · decide

theorem tagValue_of_ne_colon (h : ∀ c ∈ s.head?, c ≠ ':') : tagValue s = ("", s) := by
  unfold tagValue
  split
  · exact absurd rfl (h ':' rfl)
  · rfl

/-- The longest key and the longest value are taken. -/
theorem exists_run_of_spells {written : List Char} (hspells : Spells written item)
    (hitem : WritableItem item) (hrest : EndsTag rest) :
    ∃ after, run isKeyChar "tag name" (written ++ rest) = .ok (item.1, after) ∧
      tagValue after = (item.2, rest) := by
  have hstops := hrest.stops
  cases hspells with
  | bare key =>
    exact ⟨rest, run_toList _ hitem.key fun c hc => (hstops c hc).1,
      tagValue_of_ne_colon fun c hc => (hstops c hc).2.2⟩
  | valued key value =>
    refine ⟨':' :: (value.toList ++ rest), ?_, ?_⟩
    · have hcolon : ∀ c ∈ (':' :: (value.toList ++ rest)).head?, isKeyChar c = false := by
        rintro c ⟨⟩
        decide
      simpa using run_toList "tag name" hitem.key hcolon
    · have hend : ∀ c ∈ rest.head?, isValueChar c = false := fun c hc => (hstops c hc).2.1
      rw [tagValue, takeWhile_append_stop hitem.value hend, dropWhile_append_stop hitem.value hend,
        String.ofList_toList]

theorem exists_key_char_of_spells {written : List Char} (hspells : Spells written item)
    (hitem : WritableItem item) : ∃ c cs, written = c :: cs ∧ isKeyChar c = true := by
  obtain ⟨c, cs, hcs⟩ := List.exists_cons_of_ne_nil hitem.key.1
  have hc := hitem.key.2 c (by simp [hcs])
  cases hspells with
  | bare key => exact ⟨c, cs, hcs, hc⟩
  | valued key value => exact ⟨c, cs ++ ':' :: value.toList, by rw [hcs, List.cons_append], hc⟩

/-- A tag behind blanks is put among the known ones, unless its key is known. -/
theorem tagsWithin_tag (fuel : Nat) (known : Tags) {blanks written : List Char}
    (hblanks : ∀ c ∈ blanks, isBlank c = true) (hspells : Spells written item)
    (hitem : WritableItem item) (hrest : EndsTag rest) :
    tagsWithin (fuel + 1) known (blanks ++ (written ++ rest)) =
      if known.contains item.1 then .error (.repeatedTag item.1)
      else tagsWithin fuel (known.insert item.1 item.2) rest := by
  obtain ⟨after, hkey, hvalue⟩ := exists_run_of_spells hspells hitem hrest
  -- the text starts with a character of the key, so it is neither blank nor the end of the bag
  obtain ⟨c, cs, rfl, hc⟩ := exists_key_char_of_spells hspells hitem
  have hblank : isBlank c = false := by simp_all [isKeyChar]
  have hopen : c ≠ '}' := by
    rintro rfl
    exact absurd hc (by decide)
  rw [List.cons_append] at hkey ⊢
  rw [tagsWithin, trimStart_blanks_append hblanks, trimStart_of_not_isBlank _ hblank]
  split
  · next heq => exact absurd (List.cons.inj heq).1 hopen
  · next heq => cases heq
  · simp only [hkey, bind, Except.bind, hvalue]
    rfl

theorem spells_renderItem (item : String × String) :
    Spells (Tags.renderItem item).toList item := by
  obtain ⟨key, value⟩ := item
  rw [Tags.renderItem]
  split
  · next hempty =>
    obtain rfl : value = "" := by simpa using hempty
    exact .bare key
  · simpa using Spells.valued key value

/-- An item with a new key is read and put among the known ones. -/
theorem tagsWithin_item (fuel : Nat) (hitem : WritableItem item) (hrest : EndsItem rest)
    (hnew : known.get? item.1 = none) :
    tagsWithin (fuel + 1) known ((Tags.renderItem item).toList ++ rest) =
      tagsWithin fuel (known.insert item.1 item.2) rest := by
  have hends : EndsTag rest := fun c hc => (hrest c hc).imp_left fun h => by
    rw [h]
    decide
  have hread := tagsWithin_tag fuel known (List.forall_mem_nil _) (spells_renderItem item) hitem hends
  rwa [List.nil_append, SortedMap.contains, hnew, if_neg (by simp)] at hread

/-- Items with blanks in front of them, each behind the known ones, are read one after another. -/
theorem tagsWithin_items (known : Tags) (fuel : Nat) {items : List (String × String)}
    (hitems : ∀ item ∈ items, WritableItem item) (hrest : EndsItem rest)
    (hsorted : (known.items ++ items).Pairwise fun a b => a.1 < b.1) :
    tagsWithin (fuel + 1 + items.length) known
        (items.flatMap (fun item => ' ' :: (Tags.renderItem item).toList) ++ rest) =
      tagsWithin (fuel + 1) ⟨known.items ++ items, hsorted⟩ rest := by
  induction items generalizing known with
  | nil =>
    simp only [List.append_nil]
    rfl
  | cons item items ih =>
    obtain ⟨hitem, hmore⟩ := List.forall_mem_cons.1 hitems
    have hlast : ∀ other ∈ known.items, other.1 < item.1 := fun other hother =>
      (List.pairwise_append.1 hsorted).2.2 other hother item List.mem_cons_self
    have hends : EndsItem (items.flatMap (fun item => ' ' :: (Tags.renderItem item).toList) ++ rest) := by
      cases items with
      | nil => exact hrest
      | cons next items =>
        rintro c ⟨⟩
        exact .inl rfl
    have hinsert : (known.insert item.1 item.2).items = known.items ++ [item] :=
      insertSorted_of_forall_lt item.2 hlast
    have hsorted' : ((known.insert item.1 item.2).items ++ items).Pairwise fun a b => a.1 < b.1 := by
      rw [hinsert, List.append_assoc]
      exact hsorted
    rw [List.flatMap_cons, List.cons_append, List.cons_append, List.append_assoc, List.length_cons,
      ← Nat.add_assoc, tagsWithin_cons_space,
      tagsWithin_item _ hitem hends (SortedMap.get?_of_forall_lt hlast), ih _ hmore hsorted']
    simp only [hinsert, List.append_assoc, List.singleton_append]

theorem toList_joinWith_cons (text : String) (texts : List String) :
    (joinWith " " (text :: texts)).toList =
      text.toList ++ texts.flatMap fun other => ' ' :: other.toList := by
  induction texts generalizing text with
  | nil => simp
  | cons other texts ih =>
    rw [joinWith_cons_cons, String.toList_append, String.toList_append, ih, List.flatMap_cons]
    simp

/-- The first item needs no blank in front of it. -/
theorem tagsWithin_joinWith (fuel : Nat) (known : Tags) (texts : List String) (s : List Char) :
    tagsWithin (fuel + 1) known ((joinWith " " texts).toList ++ s) =
      tagsWithin (fuel + 1) known (texts.flatMap (fun text => ' ' :: text.toList) ++ s) := by
  cases texts with
  | nil => rfl
  | cons text texts =>
    rw [toList_joinWith_cons, List.flatMap_cons, List.cons_append, List.cons_append,
      tagsWithin_cons_space]

theorem length_le_joinWith (texts : List String) :
    texts.length ≤ (joinWith " " texts).toList.length + 1 := by
  cases texts with
  | nil => simp
  | cons text texts =>
    have hblanks : texts.length ≤ (texts.flatMap fun other => ' ' :: other.toList).length := by
      induction texts with
      | nil => simp
      | cons other texts ih =>
        rw [List.flatMap_cons, List.length_append, List.length_cons, List.length_cons]
        omega
    rw [toList_joinWith_cons, List.length_append, List.length_cons]
    omega

/-- A bag is read back off its notation. -/
theorem tags_render (h : bag.Writable) (rest : List Char) :
    tags (bag.render.toList ++ rest) = .ok (bag, rest) := by
  have hends : EndsItem ('}' :: rest) := by
    rintro c ⟨⟩
    exact .inr rfl
  have hrender : bag.render.toList ++ rest =
      '{' :: ((joinWith " " (bag.items.map Tags.renderItem)).toList ++ '}' :: rest) := by
    simp [Tags.render]
  -- every item but the first has a blank in front of it, and the brace pays for the first
  have hlen := length_le_joinWith (bag.items.map Tags.renderItem)
  rw [List.length_map] at hlen
  obtain ⟨fuel, hfuel⟩ : ∃ fuel,
      ((joinWith " " (bag.items.map Tags.renderItem)).toList ++ '}' :: rest).length + 1 =
        fuel + 1 + bag.items.length := by
    refine ⟨((joinWith " " (bag.items.map Tags.renderItem)).toList ++ '}' :: rest).length -
      bag.items.length, ?_⟩
    rw [List.length_append, List.length_cons]
    omega
  have hread := tagsWithin_items .empty fuel h hends bag.sorted
  rw [hrender, tags, hfuel, Nat.add_right_comm, tagsWithin_joinWith, Nat.add_right_comm,
    List.flatMap_map, hread, tagsWithin_close]
  rfl

/-- A text that is a bag of tags and then one word to its end is a sentence of this word under the bag. -/
theorem sentence_of_tags_word {w : Word} {cs : List Char} (hbag : bag.Writable)
    (hword : word cs = .ok (w, [])) (hstart : StartsWord cs) :
    sentence (bag.render.toList ++ cs) = .ok ⟨bag, [w]⟩ := by
  have hopen : ∃ more, bag.render.toList ++ cs = '{' :: more := ⟨_, by simp [Tags.render]; rfl⟩
  obtain ⟨more, hmore⟩ := hopen
  have htrim : trimStart (bag.render.toList ++ cs) = bag.render.toList ++ cs := by
    rw [hmore, trimStart_of_not_isBlank more (by decide)]
  have hwords : words (cs.length + 1) cs = .ok [w] := by
    obtain ⟨c, rest, rfl, hblank, -⟩ := hstart
    rw [words, trimStart_of_not_isBlank rest hblank]
    simp only [hword, bind, Except.bind]
    rfl
  simp only [sentence, htrim, tags_render hbag, hwords, bind, Except.bind, pure, Except.pure]

end Reading

namespace Sentence

/-- The bag of a sentence that is read is writable. -/
theorem tags_writable_of_parse {text : String} {sentence : Sentence}
    (h : Sentence.parse text = .ok sentence) : sentence.tags.Writable := by
  obtain ⟨⟨bag, s⟩, htags, h⟩ := bind_eq_ok_iff.1 (mapError_eq_ok_iff.1 h)
  obtain ⟨found, -, h⟩ := bind_eq_ok_iff.1 h
  split at h
  · cases h
  · cases h
    exact writable_of_tags htags

/-- A bag with a plain word behind it is read back as they are. -/
theorem parse_render_tags_append {bag : Tags} {w : Word} (hbag : bag.Writable) (hplain : w.Plain)
    (hw : w.Writable) : Sentence.parse (bag.render ++ w.render) = .ok ⟨bag, [w]⟩ := by
  have hword := (readsBack_of_plain hplain hw).1 (w.render.toList.length + 1) []
    (Nat.lt_succ_self _) (by simp [EndsWord])
  rw [List.append_nil] at hword
  rw [Sentence.parse, String.toList_append,
    sentence_of_tags_word hbag hword (startsWord_render hw)]
  rfl

end Sentence

end Etymon
