import Etymon.Proofs.Action
import Etymon.Reading.Sentence
import Mathlib.Data.List.TakeWhile

/-!
# Written words are read back

What is read off a text can be written down again: its names are made of the characters that the
notation gives them, and its brackets have affixes. A word that brackets nothing but joins is read back
as it is from its notation, because a quote opens where a part may start and closes where one has ended.

## Main definitions

* `Word.Writable`: the names in a word are made of the characters of their kind.
* `Word.Plain`: every bracket holds a join.

## Main results

* `Sentence.writable_of_parse`: the words of a sentence that is read are writable.
* `Sentence.parse_render_of_plain`: a plain word is read back as it is.
-/

namespace Etymon

open Text Reading

/-! ## Names -/

/-- A name is not empty and made of characters of its class. -/
def IsName (p : Char → Bool) (name : String) : Prop :=
  name.toList ≠ [] ∧ ∀ c ∈ name.toList, p c = true

instance (p : Char → Bool) (name : String) : Decidable (IsName p name) :=
  decidable_of_iff (name.toList ≠ [] ∧ name.toList.all p = true) (by rw [IsName, List.all_eq_true])

def Era.Writable (e : Era) : Prop :=
  IsName isIdentChar e.name

def Morpheme.Writable (m : Morpheme) : Prop :=
  IsName isFormChar m.form ∧ ∀ e ∈ m.era, e.Writable

def Lexeme.Writable (l : Lexeme) : Prop :=
  IsName isLexemeChar l.name ∧ ∀ s ∈ l.scope, IsName isIdentChar s.name

def Joiner.Writable (j : Joiner) : Prop :=
  ∀ e ∈ j.era, e.Writable

structure Frame.Writable (f : Frame) : Prop where
  prefixes : ∀ name ∈ f.prefixes, IsName isIdentChar name
  suffixes : ∀ name ∈ f.suffixes, IsName isIdentChar name

/-- The names in a word are made of the characters of their kind, and every bracket has affixes around
it: quotes without affixes are not kept. -/
def Word.Writable : Word → Prop
  | morpheme f m => f.Writable ∧ m.Writable
  | lexeme f l => f.Writable ∧ l.Writable
  | bracket f w => f.isEmpty = false ∧ f.Writable ∧ w.Writable
  | join h j t => h.Writable ∧ j.Writable ∧ t.Writable

namespace Reading

section

variable {s rest : List Char}

theorem isName_of_run {p : Char → Bool} {what name : String} (h : run p what s = .ok (name, rest)) :
    IsName p name := by
  unfold run at h
  split at h
  · cases h
  · next hne =>
    cases h
    rw [IsName, String.toList_ofList]
    exact ⟨hne, fun c hc => List.mem_takeWhile_imp hc⟩

theorem writable_of_era? {e : Option Era} (h : era? s = .ok (e, rest)) : ∀ era ∈ e, era.Writable := by
  unfold era? at h
  split at h
  · obtain ⟨⟨name, s⟩, hrun, ⟨⟩⟩ := bind_eq_ok_iff.1 h
    rintro era ⟨⟩
    exact isName_of_run hrun
  · cases h
    simp

theorem writable_of_morphemeBody {m : Morpheme} (h : morphemeBody s = .ok (m, rest)) :
    m.Writable := by
  obtain ⟨⟨form, s⟩, hform, h⟩ := bind_eq_ok_iff.1 h
  obtain ⟨⟨era, s⟩, hera, ⟨⟩⟩ := bind_eq_ok_iff.1 h
  exact ⟨isName_of_run hform, writable_of_era? hera⟩

theorem writable_of_lexemeBody {l : Lexeme} (h : lexemeBody s = .ok (l, rest)) : l.Writable := by
  obtain ⟨⟨name, s⟩, hname, h⟩ := bind_eq_ok_iff.1 h
  obtain ⟨⟨_, s⟩, -, h⟩ := bind_eq_ok_iff.1 h
  dsimp only at h
  split at h
  · obtain ⟨⟨owner, s⟩, hscope, ⟨⟩⟩ := bind_eq_ok_iff.1 h
    obtain ⟨⟨_, s⟩, -, hscope⟩ := bind_eq_ok_iff.1 hscope
    obtain ⟨⟨owner, s⟩, howner, ⟨⟩⟩ := bind_eq_ok_iff.1 hscope
    refine ⟨isName_of_run hname, ?_⟩
    rintro scope ⟨⟩
    exact isName_of_run howner
  · cases h
    exact ⟨isName_of_run hname, by simp⟩

theorem isName_of_prefixesAfter {inner names : List String} {fuel : Nat}
    (hinner : ∀ name ∈ inner, IsName isIdentChar name)
    (h : prefixesAfter inner fuel s = .ok (names, rest)) :
    ∀ name ∈ names, IsName isIdentChar name := by
  induction fuel generalizing inner s with
  | zero => cases h; exact hinner
  | succ fuel ih =>
    unfold prefixesAfter at h
    split at h
    · cases h; exact hinner
    · split at h
      · obtain ⟨⟨name, s⟩, hname, h⟩ := bind_eq_ok_iff.1 h
        obtain ⟨⟨_, s⟩, -, h⟩ := bind_eq_ok_iff.1 h
        exact ih (List.forall_mem_cons.2 ⟨isName_of_run hname, hinner⟩) h
      · cases h; exact hinner

theorem isName_of_mem_suffixesWithin (fuel : Nat) (s : List Char) :
    ∀ name ∈ (suffixesWithin fuel s).1, IsName isIdentChar name := by
  induction fuel generalizing s with
  | zero => simp [suffixesWithin]
  | succ fuel ih =>
    unfold suffixesWithin
    split
    · next c rest =>
      split
      · next hc =>
        refine List.forall_mem_cons.2 ⟨⟨?_, ?_⟩, ih _⟩
        · simp [hc]
        · rw [String.toList_ofList]
          exact fun d hd => List.mem_takeWhile_imp hd
      · simp
    · simp

/-- What is built inside a frame is writable when it is so in every writable frame. -/
theorem writable_of_part {inner : Reader Word} {w : Word}
    (hinner : ∀ s w rest, inner s = .ok (w, rest) → w.Writable) (h : part inner s = .ok (w, rest)) :
    w.Writable := by
  obtain ⟨⟨before, s⟩, hbefore, h⟩ := bind_eq_ok_iff.1 h
  obtain ⟨⟨build, s⟩, hstem, h⟩ := bind_eq_ok_iff.1 h
  cases h
  have hframe : Frame.Writable ⟨before, (suffixNames s).1⟩ :=
    ⟨isName_of_prefixesAfter (by simp) hbefore, isName_of_mem_suffixesWithin _ _⟩
  unfold stem at hstem
  split at hstem
  · obtain ⟨⟨m, s⟩, hm, ⟨⟩⟩ := bind_eq_ok_iff.1 hstem
    exact ⟨hframe, writable_of_morphemeBody hm⟩
  · obtain ⟨⟨l, s⟩, hl, ⟨⟩⟩ := bind_eq_ok_iff.1 hstem
    exact ⟨hframe, writable_of_lexemeBody hl⟩
  · obtain ⟨⟨v, s⟩, hv, hstem⟩ := bind_eq_ok_iff.1 hstem
    obtain ⟨⟨_, s⟩, -, ⟨⟩⟩ := bind_eq_ok_iff.1 hstem
    dsimp only
    split
    · exact hinner _ _ _ hv
    · next hne => exact ⟨Bool.eq_false_iff.2 hne, hframe, hinner _ _ _ hv⟩
  · cases hstem

theorem writable_of_joiner? {j : Option Joiner} (h : joiner? s = .ok (j, rest)) :
    ∀ joiner ∈ j, joiner.Writable := by
  unfold joiner? at h
  split at h
  · obtain ⟨⟨era, s⟩, hera, ⟨⟩⟩ := bind_eq_ok_iff.1 h
    rintro joiner ⟨⟩
    exact writable_of_era? hera
  · obtain ⟨⟨era, s⟩, hera, ⟨⟩⟩ := bind_eq_ok_iff.1 h
    rintro joiner ⟨⟩
    exact writable_of_era? hera
  · cases h
    simp

theorem writable_of_joins {next : Reader Word} {fuel : Nat} {first w : Word}
    (hnext : ∀ s w rest, next s = .ok (w, rest) → w.Writable) (hfirst : first.Writable)
    (h : joins next fuel first s = .ok (w, rest)) : w.Writable := by
  induction fuel generalizing first s with
  | zero => cases h; exact hfirst
  | succ fuel ih =>
    obtain ⟨⟨j, s⟩, hj, h⟩ := bind_eq_ok_iff.1 h
    cases j with
    | none => cases h; exact hfirst
    | some j =>
      obtain ⟨⟨tail, s⟩, htail, h⟩ := bind_eq_ok_iff.1 h
      have hjoin : (Word.join first j tail).Writable :=
        ⟨hfirst, writable_of_joiner? hj j rfl, hnext _ _ _ htail⟩
      exact ih hjoin h

theorem writable_of_wordWithin {depth : Nat} {w : Word} (h : wordWithin depth s = .ok (w, rest)) :
    w.Writable := by
  induction depth generalizing s w rest with
  | zero => cases h
  | succ depth ih =>
    have hpart : ∀ s w rest, part (wordWithin depth) s = .ok (w, rest) → w.Writable :=
      fun _ _ _ => writable_of_part fun _ _ _ => ih
    obtain ⟨⟨first, s⟩, hfirst, h⟩ := bind_eq_ok_iff.1 h
    exact writable_of_joins hpart (hpart _ _ _ hfirst) h

theorem writable_of_words {fuel : Nat} {found : List Word} (h : words fuel s = .ok found) :
    ∀ w ∈ found, w.Writable := by
  induction fuel generalizing s found with
  | zero => cases h; simp
  | succ fuel ih =>
    rw [words] at h
    split at h
    · cases h; simp
    · obtain ⟨⟨w, s⟩, hw, h⟩ := bind_eq_ok_iff.1 h
      obtain ⟨more, hmore, ⟨⟩⟩ := bind_eq_ok_iff.1 h
      exact List.forall_mem_cons.2 ⟨writable_of_wordWithin hw, ih hmore⟩

theorem writable_of_sentence {found : Sentence} (h : sentence s = .ok found) :
    ∀ w ∈ found.words, w.Writable := by
  obtain ⟨⟨bag, s⟩, -, h⟩ := bind_eq_ok_iff.1 h
  obtain ⟨found, hfound, h⟩ := bind_eq_ok_iff.1 h
  split at h
  · cases h
  · cases h
    exact writable_of_words hfound

end

end Reading

/-- The words of a sentence that is read are writable. -/
theorem Sentence.writable_of_parse {text : String} {sentence : Sentence}
    (h : Sentence.parse text = .ok sentence) : ∀ w ∈ sentence.words, w.Writable := by
  rw [Sentence.parse] at h
  cases hread : Reading.sentence text.toList with
  | error fault => simp [hread, Except.mapError] at h
  | ok found =>
    obtain rfl : found = sentence := by simpa [hread, Except.mapError] using h
    exact writable_of_sentence hread

namespace Reading

/-! ## Where names end -/

/-- A part of a word ends with the text, at a blank, or at a closing quote. -/
def EndsPart (rest : List Char) : Prop :=
  ∀ c ∈ rest.head?, isBlank c = true ∨ c = '"'

/-- A stem ends where a part does, or at the dot of a suffix. -/
def EndsStem (rest : List Char) : Prop :=
  ∀ c ∈ rest.head?, isBlank c = true ∨ c = '"' ∨ c = '.'

section

variable {c : Char} {rest : List Char}

theorem isIdentChar_of_isBlank (h : isBlank c = true) : isIdentChar c = false := by
  rw [Bool.eq_false_iff]
  intro hident
  simp only [isIdentChar, Bool.or_eq_true, beq_iff_eq] at hident
  rcases hident with (halnum | rfl) | rfl
  · exact absurd (isBlank_of_isAlphanumeric halnum) (by simp [h])
  · exact absurd h (by decide)
  · exact absurd h (by decide)

theorem EndsPart.endsStem (h : EndsPart rest) : EndsStem rest :=
  fun c hc => (h c hc).imp_right .inl

theorem EndsStem.isIdentChar (h : EndsStem rest) : ∀ c ∈ rest.head?, isIdentChar c = false := by
  intro c hc
  rcases h c hc with hblank | rfl | rfl
  · exact isIdentChar_of_isBlank hblank
  · decide
  · decide

theorem EndsStem.isFormChar (h : EndsStem rest) : ∀ c ∈ rest.head?, isFormChar c = false := by
  intro c hc
  rcases h c hc with hblank | rfl | rfl
  · simp [Reading.isFormChar, hblank]
  · decide
  · decide

theorem EndsStem.ne_cons (h : EndsStem rest) (hc : isBlank c = false ∧ c ≠ '"' ∧ c ≠ '.')
    (s : List Char) : rest ≠ c :: s := by
  rintro rfl
  rcases h c rfl with hblank | hquote | hdot
  · exact absurd hblank (by simp [hc.1])
  · exact hc.2.1 hquote
  · exact hc.2.2 hdot

/-! ## Names and stems are read back -/

theorem run_toList {p : Char → Bool} (what : String) {name : String} (hname : IsName p name)
    (hrest : ∀ c ∈ rest.head?, p c = false) : run p what (name.toList ++ rest) = .ok (name, rest) := by
  rw [run_append what hname.1 hname.2 hrest, String.ofList_toList]

theorem era?_append {e : Option Era} (h : ∀ era ∈ e, era.Writable) (hrest : EndsStem rest) :
    era? ((renderEra e).toList ++ rest) = .ok (e, rest) := by
  cases e with
  | none =>
    rw [renderEra_none, String.toList_empty, List.nil_append, era?]
    exact fun s => hrest.ne_cons (by decide) s
  | some e =>
    have hrun := run_toList "rule name" (h e rfl) hrest.isIdentChar
    simp [era?, hrun, bind, Except.bind, pure, Except.pure]

theorem morphemeBody_append {m : Morpheme} (h : m.Writable) (hrest : EndsStem rest) :
    morphemeBody (m.form.toList ++ ((renderEra m.era).toList ++ rest)) = .ok (m, rest) := by
  have hform : ∀ c ∈ ((renderEra m.era).toList ++ rest).head?, Reading.isFormChar c = false := by
    cases m.era with
    | none => simpa using hrest.isFormChar
    | some e =>
      rintro c hc
      have : c = '@' := by simpa [eq_comm] using hc
      subst this
      decide
  rw [morphemeBody, run_toList _ h.1 hform]
  simp [bind, Except.bind, era?_append h.2 hrest, pure, Except.pure]

theorem lexemeBody_append {l : Lexeme} (h : l.Writable) (hrest : EndsStem rest) :
    lexemeBody (l.name.toList ++ '>' :: ((renderScope l.scope).toList ++ rest)) = .ok (l, rest) := by
  obtain ⟨name, scope⟩ := l
  rw [lexemeBody, run_toList _ h.1 (by simp [isLexemeChar])]
  cases scope with
  | none =>
    simp only [renderScope_none, String.toList_empty, List.nil_append, bind, Except.bind,
      expect_cons_self, pure, Except.pure]
    split
    · next s => exact absurd rfl (hrest.ne_cons (by decide) s)
    · rfl
  | some owner =>
    have hrun := run_toList "scope name" (h.2 owner rfl) hrest.isIdentChar
    simp [bind, Except.bind, Reading.scope, hrun, pure, Except.pure]

/-! ## Affixes are read back -/

theorem toList_renderPrefixes_cons (name : String) (outer : List String) :
    (Frame.renderPrefixes (name :: outer)).toList =
      (Frame.renderPrefixes outer).toList ++ (name.toList ++ ['.']) := by
  simp [Frame.renderPrefixes, Affix.render]

theorem toList_renderSuffixes_cons (name : String) (outer : List String) :
    (Frame.renderSuffixes (name :: outer)).toList =
      '.' :: (name.toList ++ (Frame.renderSuffixes outer).toList) := by
  simp [Frame.renderSuffixes, Affix.render]

/-- Prefixes are read from the outside in, each in front of those read so far. -/
theorem prefixesAfter_append {names : List String} (h : ∀ name ∈ names, IsName isIdentChar name)
    (inner : List String) (fuel : Nat) (rest : List Char) :
    prefixesAfter inner (fuel + names.length) ((Frame.renderPrefixes names).toList ++ rest) =
      prefixesAfter (names ++ inner) fuel rest := by
  induction names generalizing fuel rest with
  | nil => rfl
  | cons name outer ih =>
    have hname := h name List.mem_cons_self
    have hdot : ∀ c ∈ ('.' :: rest).head?, isIdentChar c = false := by
      rintro c ⟨⟩
      decide
    have hrun := run_toList "prefix name" hname hdot
    have ih := ih (fun n hn => h n (List.mem_cons_of_mem name hn)) (fuel + 1) (name.toList ++ '.' :: rest)
    rw [List.length_cons, toList_renderPrefixes_cons, List.append_assoc, List.append_assoc,
      List.singleton_append, Nat.add_comm outer.length, ← Nat.add_assoc, ih]
    obtain ⟨c, cs, hcs⟩ := List.exists_cons_of_ne_nil hname.1
    have hc : isIdentChar c = true := hname.2 c (by simp [hcs])
    rw [hcs, List.cons_append] at hrun ⊢
    simp [prefixesAfter, hc, hrun, bind, Except.bind]

theorem length_le_renderPrefixes (names : List String) :
    names.length ≤ (Frame.renderPrefixes names).toList.length := by
  induction names with
  | nil => simp
  | cons name outer ih =>
    rw [toList_renderPrefixes_cons, List.length_append, List.length_append, List.length_cons,
      List.length_singleton]
    omega

/-- The prefixes in front of a stem are read back. -/
theorem prefixNames_append {names : List String} (h : ∀ name ∈ names, IsName isIdentChar name)
    (hrest : ∀ c ∈ rest.head?, isIdentChar c = false) :
    prefixNames ((Frame.renderPrefixes names).toList ++ rest) = .ok (names, rest) := by
  -- a prefix takes up its dot at least, so the length of the text is fuel enough
  have hlen := length_le_renderPrefixes names
  obtain ⟨fuel, hfuel⟩ :
      ∃ fuel, ((Frame.renderPrefixes names).toList ++ rest).length = fuel + names.length :=
    ⟨_, (Nat.sub_add_cancel (by rw [List.length_append]; omega)).symm⟩
  rw [prefixNames, hfuel, prefixesAfter_append h, List.append_nil]
  cases fuel with
  | zero => rfl
  | succ fuel =>
    cases rest with
    | nil => rfl
    | cons c rest => simp [prefixesAfter, hrest c rfl]

theorem endsStem_renderSuffixes (names : List String) (h : EndsPart rest) :
    EndsStem ((Frame.renderSuffixes names).toList ++ rest) := by
  cases names with
  | nil => exact h.endsStem
  | cons name outer =>
    rw [toList_renderSuffixes_cons]
    rintro c ⟨⟩
    exact .inr (.inr rfl)

theorem suffixesWithin_append {names : List String} (h : ∀ name ∈ names, IsName isIdentChar name)
    (hrest : EndsPart rest) (fuel : Nat) :
    suffixesWithin (fuel + names.length) ((Frame.renderSuffixes names).toList ++ rest) =
      (names, rest) := by
  induction names with
  | nil =>
    cases fuel with
    | zero => rfl
    | succ fuel =>
      change suffixesWithin (fuel + 1) rest = ([], rest)
      unfold suffixesWithin
      split
      · next c s => exact absurd (hrest '.' rfl) (by decide)
      · rfl
  | cons name outer ih =>
    have hname := h name List.mem_cons_self
    have hstop : ∀ c ∈ ((Frame.renderSuffixes outer).toList ++ rest).head?, isIdentChar c = false :=
      (endsStem_renderSuffixes outer hrest).isIdentChar
    obtain ⟨c, cs, hcs⟩ := List.exists_cons_of_ne_nil hname.1
    have hc : isIdentChar c = true := hname.2 c (by simp [hcs])
    have htake := takeWhile_append_stop hname.2 hstop
    have hdrop := dropWhile_append_stop hname.2 hstop
    rw [List.length_cons, ← Nat.add_assoc, toList_renderSuffixes_cons, List.cons_append,
      List.append_assoc]
    rw [hcs, List.cons_append] at htake hdrop ⊢
    rw [suffixesWithin, if_pos hc, htake, hdrop, ih fun n hn => h n (List.mem_cons_of_mem name hn),
      ← hcs]
    simp only [String.ofList_toList]

theorem length_le_renderSuffixes (names : List String) :
    names.length ≤ (Frame.renderSuffixes names).toList.length := by
  induction names with
  | nil => simp
  | cons name outer ih =>
    rw [toList_renderSuffixes_cons, List.length_cons, List.length_cons, List.length_append]
    omega

/-- The suffixes behind a stem are read back. -/
theorem suffixNames_append {names : List String} (h : ∀ name ∈ names, IsName isIdentChar name)
    (hrest : EndsPart rest) :
    suffixNames ((Frame.renderSuffixes names).toList ++ rest) = (names, rest) := by
  have hlen := length_le_renderSuffixes names
  obtain ⟨fuel, hfuel⟩ :
      ∃ fuel, ((Frame.renderSuffixes names).toList ++ rest).length = fuel + names.length :=
    ⟨_, (Nat.sub_add_cancel (by rw [List.length_append]; omega)).symm⟩
  rw [suffixNames, hfuel, suffixesWithin_append h hrest]

/-! ## Parts are read back -/

/-- A stem that is read in front of its suffixes is read between its affixes. -/
theorem part_append {inner : Reader Word} {f : Frame} {core : List Char} (build : Frame → Word)
    (hf : f.Writable) (hne : core ≠ []) (hcore : ∀ c ∈ core.head?, isIdentChar c = false)
    (hrest : EndsPart rest)
    (hstem : ∀ after, EndsStem after → stem inner (core ++ after) = .ok (build, after)) :
    part inner ((Frame.renderPrefixes f.prefixes).toList ++
      (core ++ ((Frame.renderSuffixes f.suffixes).toList ++ rest))) = .ok (build f, rest) := by
  have hhead : ∀ c ∈ (core ++ ((Frame.renderSuffixes f.suffixes).toList ++ rest)).head?,
      isIdentChar c = false := by
    rwa [List.head?_append_of_ne_nil _ hne]
  simp only [part, framed, prefixNames_append hf.prefixes hhead, bind, Except.bind,
    hstem _ (endsStem_renderSuffixes f.suffixes hrest), suffixNames_append hf.suffixes hrest, pure,
    Except.pure]

theorem toList_render_morpheme (m : Morpheme) :
    m.render.toList = '*' :: (m.form.toList ++ (renderEra m.era).toList) := by
  simp [Morpheme.render]

theorem toList_render_lexeme (l : Lexeme) :
    l.render.toList = '<' :: (l.name.toList ++ '>' :: (renderScope l.scope).toList) := by
  simp [Lexeme.render]

theorem stem_morpheme {inner : Reader Word} {m : Morpheme} (h : m.Writable) {after : List Char}
    (hafter : EndsStem after) :
    stem inner (m.render.toList ++ after) = .ok (fun frame => .morpheme frame m, after) := by
  rw [toList_render_morpheme, List.cons_append, List.append_assoc, stem, morphemeBody_append h hafter]
  rfl

theorem stem_lexeme {inner : Reader Word} {l : Lexeme} (h : l.Writable) {after : List Char}
    (hafter : EndsStem after) :
    stem inner (l.render.toList ++ after) = .ok (fun frame => .lexeme frame l, after) := by
  rw [toList_render_lexeme, List.cons_append, List.append_assoc, List.cons_append, stem,
    lexemeBody_append h hafter]
  rfl

/-- A word in quotes is a stem; without affixes it leaves no trace of its quotes. -/
theorem stem_quoted {inner : Reader Word} {w : Word} {after : List Char}
    (h : inner (w.render.toList ++ '"' :: after) = .ok (w, '"' :: after)) :
    stem inner ((quoteIf true w.render).toList ++ after) =
      .ok (fun frame => if frame.isEmpty then w else .bracket frame w, after) := by
  have htext : (quoteIf true w.render).toList ++ after = '"' :: (w.render.toList ++ '"' :: after) := by
    simp
  rw [htext, stem, h]
  rfl

theorem joiner?_append {j : Joiner} (h : j.Writable) {after : List Char} (hafter : EndsStem after) :
    joiner? (j.render.toList ++ after) = .ok (some j, after) := by
  obtain ⟨stress, era⟩ := j
  have hera := era?_append h hafter
  cases stress with
  | head =>
    have htext : (Joiner.render ⟨.head, era⟩).toList ++ after =
        '!' :: '+' :: ((renderEra era).toList ++ after) := by
      simp [Joiner.render, Stress.render]
    rw [htext, joiner?, hera]
    rfl
  | tail =>
    have htext : (Joiner.render ⟨.tail, era⟩).toList ++ after =
        '+' :: '!' :: ((renderEra era).toList ++ after) := by
      simp [Joiner.render, Stress.render]
    rw [htext, joiner?, hera]
    rfl

/-! ## Words are read back -/

/-- A word ends with the text, or at a closing quote. -/
def EndsWord (rest : List Char) : Prop :=
  ∀ c ∈ rest.head?, c = '"'

theorem EndsWord.endsPart (h : EndsWord rest) : EndsPart rest :=
  fun c hc => .inr (h c hc)

theorem EndsWord.trimStart_eq (h : EndsWord rest) : trimStart rest = rest := by
  cases rest with
  | nil => rfl
  | cons c rest =>
    obtain rfl := h c rfl
    exact trimStart_of_not_isBlank rest (by decide)

theorem joiner?_of_endsWord (h : EndsWord rest) : joiner? rest = .ok (none, rest) := by
  cases rest with
  | nil => rfl
  | cons c rest =>
    obtain rfl := h c rfl
    rfl

/-- Without a joiner behind it a word is what is read already. -/
theorem joins_of_endsWord (next : Reader Word) (fuel : Nat) (w : Word) (h : EndsWord rest) :
    joins next fuel w rest = .ok (w, rest) := by
  cases fuel with
  | zero => rw [joins, h.trimStart_eq]
  | succ fuel =>
    rw [joins, h.trimStart_eq, joiner?_of_endsWord h]
    rfl

/-- The notation of a word as a side of a join. -/
def side (w : Word) : List Char :=
  (quoteIf w.isJoin w.render).toList

/-- A word is read back off its notation wherever it may end, by a reader that opens enough quotes. -/
def ReadsBack (w : Word) : Prop :=
  ∀ depth rest, w.render.toList.length < depth → EndsWord rest →
    wordWithin depth (w.render.toList ++ rest) = .ok (w, rest)

/-- A side of a join is read back off its notation wherever a part may end. -/
def ReadsBackAsSide (w : Word) : Prop :=
  ∀ depth rest, (side w).length ≤ depth → EndsPart rest →
    part (wordWithin depth) (side w ++ rest) = .ok (w, rest)

end

end Reading

/-! ## Plain words -/

/-- Every bracket holds a join. -/
def Word.Plain : Word → Prop
  | morpheme .. => True
  | lexeme .. => True
  | bracket _ w => w.isJoin = true ∧ w.Plain
  | join h _ t => h.Plain ∧ t.Plain

namespace Reading

variable {w : Word} {cs rest : List Char}

/-- A text starts as the notation of a word does: with no blank and with no bag of tags. -/
def StartsWord (cs : List Char) : Prop :=
  ∃ c rest, cs = c :: rest ∧ isBlank c = false ∧ c ≠ '{'

theorem StartsWord.append (h : StartsWord cs) (rest : List Char) : StartsWord (cs ++ rest) := by
  obtain ⟨c, cs, rfl, hc⟩ := h
  exact ⟨c, cs ++ rest, rfl, hc⟩

theorem StartsWord.trimStart_eq (h : StartsWord cs) : trimStart cs = cs := by
  obtain ⟨c, cs, rfl, hblank, -⟩ := h
  exact trimStart_of_not_isBlank cs hblank

theorem startsWord_of_isName {name : String} (h : IsName isIdentChar name) :
    StartsWord name.toList := by
  obtain ⟨c, cs, hcs⟩ := List.exists_cons_of_ne_nil h.1
  have hc : isIdentChar c = true := h.2 c (by simp [hcs])
  refine ⟨c, cs, hcs, ?_, ?_⟩
  · rw [Bool.eq_false_iff]
    intro hblank
    rw [isIdentChar_of_isBlank hblank] at hc
    cases hc
  · rintro rfl
    exact absurd hc (by decide)

theorem toList_around (f : Frame) (stem : String) : (f.around stem).toList =
    (Frame.renderPrefixes f.prefixes).toList ++
      (stem.toList ++ (Frame.renderSuffixes f.suffixes).toList) := by
  simp [Frame.around]

theorem startsWord_around {f : Frame} {stem : String} (hf : f.Writable)
    (h : StartsWord stem.toList) : StartsWord (f.around stem).toList := by
  have hprefixes : ∀ names : List String, (∀ name ∈ names, IsName isIdentChar name) →
      ∀ cs, StartsWord cs → StartsWord ((Frame.renderPrefixes names).toList ++ cs) := by
    intro names hnames
    induction names with
    | nil => exact fun _ hcs => hcs
    | cons name outer ih =>
      intro cs _
      rw [toList_renderPrefixes_cons, List.append_assoc, List.append_assoc]
      exact ih (fun n hn => hnames n (List.mem_cons_of_mem name hn)) _
        ((startsWord_of_isName (hnames name List.mem_cons_self)).append _)
  rw [toList_around]
  exact hprefixes _ hf.prefixes _ (h.append _)

theorem startsWord_quoted (s : String) : StartsWord (quoteIf true s).toList :=
  ⟨'"', s.toList ++ ['"'], by simp, by decide, by decide⟩

theorem toList_render_join (h : Word) (j : Joiner) (t : Word) :
    (Word.join h j t).render.toList = side h ++ ' ' :: (j.render.toList ++ ' ' :: side t) := by
  simp [Word.render, side]

theorem startsWord_render (h : w.Writable) : StartsWord w.render.toList := by
  induction w with
  | morpheme f m =>
    exact startsWord_around h.1 ⟨'*', _, toList_render_morpheme m, by decide, by decide⟩
  | lexeme f l =>
    exact startsWord_around h.1 ⟨'<', _, toList_render_lexeme l, by decide, by decide⟩
  | bracket f w ih =>
    refine startsWord_around h.2.1 ?_
    cases w.isJoin with
    | false => exact ih h.2.2
    | true => exact startsWord_quoted _
  | join head j tail ihh iht =>
    rw [toList_render_join]
    refine StartsWord.append ?_ _
    rw [side]
    cases head.isJoin with
    | false => exact ihh h.1
    | true => exact startsWord_quoted _

theorem startsWord_side (h : w.Writable) : StartsWord (side w) := by
  rw [side]
  cases w.isJoin with
  | false => exact startsWord_render h
  | true => exact startsWord_quoted _

/-- The whole word is a part when it is no join. -/
theorem ReadsBackAsSide.readsBack (h : ReadsBackAsSide w) (hw : w.Writable)
    (hjoin : w.isJoin = false) : ReadsBack w := by
  intro depth rest hdepth hrest
  obtain ⟨depth, rfl⟩ : ∃ n, depth = n + 1 := ⟨depth - 1, by omega⟩
  have hside : side w = w.render.toList := by rw [side, hjoin, quoteIf_false]
  have hpart := h depth rest (by rw [hside]; omega) hrest.endsPart
  rw [hside] at hpart
  simp only [wordWithin, ((startsWord_render hw).append rest).trimStart_eq, hpart, bind, Except.bind,
    joins_of_endsWord _ _ _ hrest]

theorem isIdentChar_quoted (s : String) :
    ∀ c ∈ (quoteIf true s).toList.head?, isIdentChar c = false := by
  intro c hc
  have hquote : c = '"' := by simpa [eq_comm] using hc
  rw [hquote]
  decide

/-- Quotes around a word are read back with the affixes around them. -/
theorem part_quoted {f : Frame} {depth : Nat} (h : ReadsBack w) (hf : f.Writable)
    (hdepth : (f.around (quoteIf true w.render)).toList.length ≤ depth) (hrest : EndsPart rest) :
    part (wordWithin depth) ((f.around (quoteIf true w.render)).toList ++ rest) =
      .ok (if f.isEmpty then w else .bracket f w, rest) := by
  -- the quotes themselves pay for the level that they open
  have hinner : w.render.toList.length < depth := by
    have hquote : "\"".toList.length = 1 := rfl
    simp only [toList_around, quoteIf_true, String.toList_append, List.length_append] at hdepth
    omega
  rw [toList_around, List.append_assoc, List.append_assoc]
  exact part_append (fun frame => if frame.isEmpty then w else .bracket frame w) hf (by simp)
    (isIdentChar_quoted _) hrest
    fun after _ => stem_quoted (h depth ('"' :: after) hinner (by simp [EndsWord]))

/-- A join in quotes is a part. -/
theorem ReadsBack.readsBackAsSide (h : ReadsBack w) (hjoin : w.isJoin = true) :
    ReadsBackAsSide w := by
  intro depth rest hdepth hrest
  have hempty : Frame.empty.Writable := ⟨by simp [Frame.empty], by simp [Frame.empty]⟩
  rw [side, hjoin, ← Frame.around_empty (quoteIf true w.render)] at hdepth ⊢
  exact part_quoted h hempty hdepth hrest

/-- Affixes around a join in quotes are read back with it. -/
theorem readsBackAsSide_bracket {f : Frame} (hw : ReadsBack w) (hf : f.Writable)
    (hne : f.isEmpty = false) (hjoin : w.isJoin = true) : ReadsBackAsSide (.bracket f w) := by
  intro depth rest hdepth hrest
  have hside : side (.bracket f w) = (f.around (quoteIf true w.render)).toList := by
    rw [side, Word.render, hjoin]
    rfl
  rw [hside] at hdepth ⊢
  have hpart := part_quoted hw hf hdepth hrest
  rwa [hne, if_neg (by decide)] at hpart

/-- A stem that starts with no name is read back between its affixes. -/
theorem part_around {f : Frame} {depth : Nat} {core : String} (build : Frame → Word) (hf : f.Writable)
    (hcore : ∃ c cs, core.toList = c :: cs ∧ isIdentChar c = false)
    (hstem : ∀ after, EndsStem after →
      stem (wordWithin depth) (core.toList ++ after) = .ok (build, after)) (hrest : EndsPart rest) :
    part (wordWithin depth) ((f.around core).toList ++ rest) = .ok (build f, rest) := by
  obtain ⟨c, cs, hcs, hc⟩ := hcore
  rw [toList_around, List.append_assoc, List.append_assoc]
  exact part_append build hf (by simp [hcs]) (by simpa [hcs] using hc) hrest hstem

theorem readsBackAsSide_morpheme {f : Frame} {m : Morpheme} (hf : f.Writable) (hm : m.Writable) :
    ReadsBackAsSide (.morpheme f m) :=
  fun _ _ _ hrest => part_around (fun frame => .morpheme frame m) hf
    ⟨'*', _, toList_render_morpheme m, by decide⟩ (fun _ => stem_morpheme hm) hrest

theorem readsBackAsSide_lexeme {f : Frame} {l : Lexeme} (hf : f.Writable) (hl : l.Writable) :
    ReadsBackAsSide (.lexeme f l) :=
  fun _ _ _ hrest => part_around (fun frame => .lexeme frame l) hf
    ⟨'<', _, toList_render_lexeme l, by decide⟩ (fun _ => stem_lexeme hl) hrest

theorem trimStart_cons_space (cs : List Char) : trimStart (' ' :: cs) = trimStart cs := rfl

theorem startsWord_joiner (j : Joiner) : StartsWord j.render.toList := by
  obtain ⟨stress, era⟩ := j
  cases stress with
  | head =>
    exact ⟨'!', '+' :: (renderEra era).toList, by simp [Joiner.render, Stress.render], by decide,
      by decide⟩
  | tail =>
    exact ⟨'+', '!' :: (renderEra era).toList, by simp [Joiner.render, Stress.render], by decide,
      by decide⟩

/-- Sides that are read back are read back around a joiner. -/
theorem readsBack_join {h t : Word} {j : Joiner} (hh : ReadsBackAsSide h) (hhead : h.Writable)
    (hj : j.Writable) (ht : ReadsBackAsSide t) (htail : t.Writable) : ReadsBack (.join h j t) := by
  intro depth rest hdepth hrest
  obtain ⟨depth, rfl⟩ : ∃ n, depth = n + 1 := ⟨depth - 1, by omega⟩
  rw [toList_render_join] at hdepth ⊢
  simp only [List.length_append, List.length_cons] at hdepth
  have hspace : ∀ cs, EndsPart (' ' :: cs) := by
    rintro cs c ⟨⟩
    exact .inl (by decide)
  have hreadHead := hh depth (' ' :: (j.render.toList ++ ' ' :: side t) ++ rest) (by omega) (hspace _)
  have hreadTail := ht depth rest (by omega) hrest.endsPart
  have hjoiner := joiner?_append hj (hspace (side t ++ rest)).endsStem
  -- trimming takes away the blanks on both sides of the joiner and nothing else
  have hmark : ∀ cs, trimStart (j.render.toList ++ cs) = j.render.toList ++ cs :=
    fun cs => ((startsWord_joiner j).append cs).trimStart_eq
  obtain ⟨fuel, hfuel⟩ : ∃ fuel,
      (' ' :: (j.render.toList ++ ' ' :: side t) ++ rest).length = fuel + 1 := ⟨_, rfl⟩
  have hfirst := ((startsWord_side hhead).append
    (' ' :: (j.render.toList ++ ' ' :: side t) ++ rest)).trimStart_eq
  have hlast := ((startsWord_side htail).append rest).trimStart_eq
  rw [List.append_assoc]
  simp only [wordWithin, hfirst, hreadHead, bind, Except.bind, hfuel]
  simp only [joins, List.cons_append, List.append_assoc, trimStart_cons_space, hmark, hjoiner, bind,
    Except.bind, hlast, hreadTail, joins_of_endsWord _ _ _ hrest]

/-- A plain word is read back as it is. -/
theorem readsBack_of_plain (hplain : w.Plain) (hw : w.Writable) :
    ReadsBack w ∧ ReadsBackAsSide w := by
  induction w with
  | morpheme f m =>
    have hside : ReadsBackAsSide (.morpheme f m) := readsBackAsSide_morpheme hw.1 hw.2
    exact ⟨hside.readsBack hw rfl, hside⟩
  | lexeme f l =>
    have hside : ReadsBackAsSide (.lexeme f l) := readsBackAsSide_lexeme hw.1 hw.2
    exact ⟨hside.readsBack hw rfl, hside⟩
  | bracket f w ih =>
    have hside : ReadsBackAsSide (.bracket f w) :=
      readsBackAsSide_bracket (ih hplain.2 hw.2.2).1 hw.2.1 hw.1 hplain.1
    exact ⟨hside.readsBack hw rfl, hside⟩
  | join h j t ihh iht =>
    have hword : ReadsBack (.join h j t) :=
      readsBack_join (ihh hplain.1 hw.1).2 hw.1 hw.2.1 (iht hplain.2 hw.2.2).2 hw.2.2
    exact ⟨hword, hword.readsBackAsSide rfl⟩

theorem tags_cons {c : Char} (h : c ≠ '{') (cs : List Char) :
    tags (c :: cs) = .ok (.empty, c :: cs) := by
  unfold tags
  split
  · next heq => exact absurd (List.cons.inj heq).1 h
  · rfl

/-- A text that is one word from its first character to its last is a sentence of this word. -/
theorem sentence_of_word (hstart : StartsWord cs) (hword : word cs = .ok (w, [])) :
    sentence cs = .ok ⟨.empty, [w]⟩ := by
  obtain ⟨c, cs, rfl, hblank, hbrace⟩ := hstart
  have hwords : words ((c :: cs).length + 1) (c :: cs) = .ok [w] := by
    rw [words, trimStart_of_not_isBlank cs hblank]
    simp only [hword, bind, Except.bind]
    rfl
  simp only [sentence, trimStart_of_not_isBlank cs hblank, tags_cons hbrace, hwords, bind, Except.bind,
    pure, Except.pure]

end Reading

/-- A plain word is read back as it is, as the only word under an empty bag of tags. -/
theorem Sentence.parse_render_of_plain {w : Word} (hplain : w.Plain) (hw : w.Writable) :
    Sentence.parse w.render = .ok ⟨.empty, [w]⟩ := by
  have hword := (readsBack_of_plain hplain hw).1 (w.render.toList.length + 1) []
    (Nat.lt_succ_self _) (by simp [EndsWord])
  rw [List.append_nil] at hword
  rw [Sentence.parse, sentence_of_word (startsWord_render hw) hword]
  rfl

end Etymon
