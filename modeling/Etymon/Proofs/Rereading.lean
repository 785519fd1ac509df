import Etymon.Proofs.Notation
import Etymon.Proofs.Resolution
import Etymon.Proofs.ScopeChains
import Mathlib.Data.List.Basic

/-!
# Words that are read again

The notation of a word leaves out the quotes around a part with affixes that stands inside further
affixes. What is read back is the word with the affixes of the two merged: all suffixes then bind
before all prefixes. A form is written as a word that names nothing.

## Main definitions

* `Word.flat`: a word without the brackets that its notation leaves out.
* `Word.SuffixesFirst`: no bracket puts suffixes around a part with prefixes in front of it.
* `Word.outline`: the joins of a word in which every name stands for the same morpheme.
* `Lexicon.sample`: a lexicon in which every name stands for the same morpheme.
* `Form.toWord`: a form as a word.

## Main results

* `Sentence.parse_render`: the notation of a word is read back as the flat word.
* `Sentence.rereads_alike_iff`: a word means the same when it is read again exactly if its suffixes
  come first.
* `Form.read_back`: a form that is typed in again is resolved to itself.
-/

namespace Etymon

/-! ## Merged affixes -/

namespace Frame

variable {f g : Frame}

/-- The affixes of two frames around one stem, `g` inside `f`. -/
def inside (g f : Frame) : Frame :=
  ⟨g.prefixes ++ f.prefixes, g.suffixes ++ f.suffixes⟩

theorem renderPrefixes_append (inner outer : List String) :
    renderPrefixes (inner ++ outer) = renderPrefixes outer ++ renderPrefixes inner := by
  induction inner with
  | nil => simp [renderPrefixes]
  | cons name inner ih =>
    rw [List.cons_append, renderPrefixes, ih, renderPrefixes, String.append_assoc]

theorem renderSuffixes_append (inner outer : List String) :
    renderSuffixes (inner ++ outer) = renderSuffixes inner ++ renderSuffixes outer := by
  induction inner with
  | nil => simp [renderSuffixes]
  | cons name inner ih =>
    rw [List.cons_append, renderSuffixes, ih, renderSuffixes, String.append_assoc]

theorem around_inside (g f : Frame) (stem : String) :
    (g.inside f).around stem = f.around (g.around stem) := by
  simp only [around, inside, renderPrefixes_append, renderSuffixes_append, String.append_assoc]

theorem isEmpty_of_isEmpty_inside (h : (g.inside f).isEmpty = true) : f.isEmpty = true := by
  simp only [isEmpty, inside, Bool.and_eq_true, List.isEmpty_iff, List.append_eq_nil_iff] at h ⊢
  exact ⟨h.1.2, h.2.2⟩

theorem isEmpty_inside (h : f.isEmpty = false) : (g.inside f).isEmpty = false := by
  rw [Bool.eq_false_iff] at h ⊢
  exact mt isEmpty_of_isEmpty_inside h

theorem Writable.inside (hg : g.Writable) (hf : f.Writable) : (g.inside f).Writable :=
  ⟨List.forall_mem_append.2 ⟨hg.prefixes, hf.prefixes⟩,
    List.forall_mem_append.2 ⟨hg.suffixes, hf.suffixes⟩⟩

end Frame

namespace Word

variable {f : Frame} {w : Word}

/-- A word inside more affixes, merged with those it has itself. -/
def within (f : Frame) : Word → Word
  | morpheme g m => morpheme (g.inside f) m
  | lexeme g l => lexeme (g.inside f) l
  | bracket g w => bracket (g.inside f) w
  | join h j t => bracket f (join h j t)

/-- A word without the brackets that its notation leaves out. -/
def flat : Word → Word
  | morpheme f m => morpheme f m
  | lexeme f l => lexeme f l
  | bracket f w => w.flat.within f
  | join h j t => join h.flat j t.flat

theorem isJoin_within (f : Frame) (w : Word) : (w.within f).isJoin = false := by
  cases w <;> rfl

theorem isJoin_flat (w : Word) : w.flat.isJoin = w.isJoin := by
  cases w with
  | morpheme | lexeme | join => rfl
  | bracket f w => exact isJoin_within f w.flat

theorem render_within (f : Frame) (w : Word) :
    (w.within f).render = f.around (quoteIf w.isJoin w.render) := by
  cases w with
  | morpheme | lexeme | bracket => exact Frame.around_inside _ _ _
  | join => rfl

/-- The brackets that are left out make no difference to the notation. -/
theorem render_flat (w : Word) : w.flat.render = w.render := by
  induction w with
  | morpheme | lexeme => rfl
  | bracket f w ih => rw [flat, render_within, isJoin_flat, ih, render]
  | join h j t ihh iht => rw [flat, render, isJoin_flat, isJoin_flat, ihh, iht, render]

theorem Plain.within (h : w.Plain) (f : Frame) : (w.within f).Plain := by
  cases w with
  | morpheme | lexeme | bracket => exact h
  | join => exact ⟨rfl, h⟩

theorem plain_flat (w : Word) : w.flat.Plain := by
  induction w with
  | morpheme | lexeme => trivial
  | bracket f w ih => exact ih.within f
  | join h j t ihh iht => exact ⟨ihh, iht⟩

theorem Writable.within (h : w.Writable) (hne : f.isEmpty = false) (hf : f.Writable) :
    (w.within f).Writable := by
  cases w with
  | morpheme | lexeme => exact ⟨h.1.inside hf, h.2⟩
  | bracket => exact ⟨Frame.isEmpty_inside hne, h.2.1.inside hf, h.2.2⟩
  | join => exact ⟨hne, hf, h⟩

theorem Writable.flat (h : w.Writable) : w.flat.Writable := by
  induction w with
  | morpheme | lexeme => exact h
  | bracket f w ih => exact (ih h.2.2).within h.1 h.2.1
  | join head j tail ihh iht => exact ⟨ihh h.1, h.2.1, iht h.2.2⟩

end Word

/-- The notation of a word is read back as the flat word, alone and without tags. -/
theorem Sentence.parse_render {w : Word} (h : w.Writable) :
    Sentence.parse w.render = .ok ⟨.empty, [w.flat]⟩ := by
  rw [← w.render_flat]
  exact Sentence.parse_render_of_plain w.plain_flat h.flat

/-! ## The order of affixes -/

namespace Word

/-- The prefixes in front of a word's notation, outside all quotes. -/
def prefixesInFront : Word → List String
  | morpheme f _ => f.prefixes
  | lexeme f _ => f.prefixes
  | bracket f w => w.prefixesInFront ++ f.prefixes
  | join .. => []

/-- No bracket puts suffixes around a part with prefixes in front of it. -/
def SuffixesFirst : Word → Prop
  | morpheme .. => True
  | lexeme .. => True
  | bracket f w => w.SuffixesFirst ∧ (f.suffixes = [] ∨ w.prefixesInFront = [])
  | join h _ t => h.SuffixesFirst ∧ t.SuffixesFirst

/-- The affixes directly around a word. -/
def frame : Word → Frame
  | morpheme f _ => f
  | lexeme f _ => f
  | bracket f _ => f
  | join .. => .empty

/-- A word without the affixes directly around it. -/
def core : Word → Word
  | morpheme _ m => morpheme .empty m
  | lexeme _ l => lexeme .empty l
  | bracket _ w => w
  | join h j t => join h j t

theorem frame_within (f : Frame) (w : Word) : (w.within f).frame = w.frame.inside f := by
  cases w <;> rfl

theorem core_within (f : Frame) (w : Word) : (w.within f).core = w.core := by
  cases w <;> rfl

theorem prefixes_frame_flat (w : Word) : w.flat.frame.prefixes = w.prefixesInFront := by
  induction w with
  | morpheme | lexeme | join => rfl
  | bracket f w ih => rw [flat, frame_within, Frame.inside, ih, prefixesInFront]

end Word

section

variable (x : Expansion)

theorem Expansion.frame_empty : x.frame .empty = pure := rfl

/-- Two frames around a form are one, unless prefixes of the inner one bind before suffixes of the
outer one. -/
theorem Expansion.frame_inside {f g : Frame} (h : f.suffixes = [] ∨ g.prefixes = []) (form : Form) :
    x.frame (g.inside f) form = x.frame g form >>= x.frame f := by
  unfold Expansion.frame
  obtain h | h := h
  · simp only [Frame.inside, h, List.append_nil, List.foldlM_append, List.foldlM_nil, bind_assoc,
      pure_bind]
  · simp only [Frame.inside, h, List.nil_append, List.foldlM_append, List.foldlM_nil, bind_assoc,
      pure_bind]

/-- The affixes directly around a word bind after everything in it is expanded. -/
theorem Word.expand_eq_core (w : Word) : w.expand x = w.core.expand x >>= x.frame w.frame := by
  cases w with
  | morpheme f m => simp only [expand, core, frame, x.frame_empty, bind_assoc, pure_bind]
  | lexeme f l => simp only [expand, core, frame, x.frame_empty, bind_pure]
  | bracket f w => rfl
  | join h j t => exact (bind_pure _).symm

theorem Word.expand_within {f : Frame} {w : Word} (h : f.suffixes = [] ∨ w.frame.prefixes = []) :
    (w.within f).expand x = w.expand x >>= x.frame f := by
  rw [expand_eq_core, core_within, frame_within, expand_eq_core x w, bind_assoc]
  exact congrArg _ (funext (x.frame_inside h))

/-- A word whose suffixes come first is expanded as its flat word. -/
theorem Word.expand_flat {w : Word} (h : w.SuffixesFirst) : w.flat.expand x = w.expand x := by
  induction w with
  | morpheme | lexeme => rfl
  | bracket f w ih =>
    rw [flat, expand_within x (by rw [prefixes_frame_flat]; exact h.2), ih h.1]
    rfl
  | join head j tail ihh iht => simp only [flat, expand, ihh h.1, iht h.2]

end

theorem Lexicon.resolve_flat {w : Word} (h : w.SuffixesFirst) (lex : Lexicon) (scope : Scope) :
    lex.resolve w.flat scope = lex.resolve w scope :=
  Word.expand_flat _ h

/-! ## Outlines -/

/-- The morpheme that every name stands for in an outline. -/
def Morpheme.dot : Morpheme :=
  ⟨"a", none⟩

def Form.dot : Form :=
  .leaf .dot

namespace Frame

/-- Unstressed suffixes behind a form, one after another. -/
def outlineSuffixes (names : List String) (form : Form) : Form :=
  names.foldl (fun form _ => .join form ⟨.head, none⟩ .dot) form

/-- Unstressed prefixes in front of a form, one after another. -/
def outlinePrefixes (names : List String) (form : Form) : Form :=
  names.foldl (fun form _ => .join .dot ⟨.tail, none⟩ form) form

def outline (f : Frame) (form : Form) : Form :=
  outlinePrefixes f.prefixes (outlineSuffixes f.suffixes form)

theorem outlineSuffixes_injective (names : List String) :
    Function.Injective (outlineSuffixes names) := by
  induction names with
  | nil => exact Function.injective_id
  | cons name outer ih => exact fun form form' h => (Form.join.inj (ih h)).1

theorem outlinePrefixes_injective (names : List String) :
    Function.Injective (outlinePrefixes names) := by
  induction names with
  | nil => exact Function.injective_id
  | cons name outer ih => exact fun form form' h => (Form.join.inj (ih h)).2.2

/-- A prefix and a suffix do not both bind last: they leave the stress on different sides. -/
theorem outlinePrefixes_ne_outlineSuffixes {prefixes suffixes : List String} (hp : prefixes ≠ [])
    (hs : suffixes ≠ []) (form form' : Form) :
    outlinePrefixes prefixes form ≠ outlineSuffixes suffixes form' := by
  obtain ⟨inner, name, rfl⟩ := (List.eq_nil_or_concat' prefixes).resolve_left hp
  obtain ⟨inner', name', rfl⟩ := (List.eq_nil_or_concat' suffixes).resolve_left hs
  simp [outlinePrefixes, outlineSuffixes]

theorem outline_inside (g f : Frame) (form : Form) :
    (g.inside f).outline form = outlinePrefixes f.prefixes
      (outlinePrefixes g.prefixes (outlineSuffixes f.suffixes (outlineSuffixes g.suffixes form))) := by
  simp only [outline, inside, outlinePrefixes, outlineSuffixes, List.foldl_append]

end Frame

namespace Word

/-- The joins of a word in which every name stands for the same morpheme. -/
def outline : Word → Form
  | morpheme f m => f.outline (.leaf m)
  | lexeme f _ => f.outline .dot
  | bracket f w => f.outline w.outline
  | join h j t => .join h.outline j t.outline

theorem outline_eq_core (w : Word) : w.outline = w.frame.outline w.core.outline := by
  cases w <;> rfl

/-- When a part with affixes inside further affixes has the outline of both kinds of affixes merged,
its suffixes come first. -/
theorem suffixesFirst_of_outline {w : Word} (h : w.flat.outline = w.outline) : w.SuffixesFirst := by
  induction w with
  | morpheme | lexeme => trivial
  | bracket f w ih =>
    rw [flat, outline_eq_core, frame_within, core_within, Frame.outline_inside, outline,
      Frame.outline] at h
    -- the outer prefixes bind last on both sides
    have hin := Frame.outlinePrefixes_injective _ h
    have hflat : w.flat.outline = Frame.outlinePrefixes w.flat.frame.prefixes
      (Frame.outlineSuffixes w.flat.frame.suffixes w.flat.core.outline) := outline_eq_core w.flat
    by_cases hs : f.suffixes = []
    · rw [hs] at hin
      exact ⟨ih (hflat.trans hin), .inl hs⟩
    by_cases hp : w.flat.frame.prefixes = []
    · rw [hp] at hin hflat
      exact ⟨ih (hflat.trans (Frame.outlineSuffixes_injective _ hin)),
        .inr (w.prefixes_frame_flat ▸ hp)⟩
    -- an inner prefix binds last when the affixes are merged, an outer suffix when they are not
    exact absurd hin (Frame.outlinePrefixes_ne_outlineSuffixes hp hs _ _)
  | join head j tail ihh iht =>
    obtain ⟨hh, -, ht⟩ := Form.join.inj h
    exact ⟨ihh hh, iht ht⟩

end Word

/-! ## Sample lexicons -/

/-- What is named is allowed, and stands for the morpheme of outlines without taking the stress. -/
def Expansion.Dots (x : Expansion) : Mention → Prop
  | .era e => x.checkEra e = .ok ()
  | .lexeme l => x.lexeme l = .ok .dot
  | .affix a => ∃ definition, x.affix a = .ok (definition, .dot) ∧ definition.stressed = false ∧
      definition.era = none

section

variable {x : Expansion}

theorem Expansion.addSuffix_of_dots {name : String} (h : x.Dots (.affix (.suf name))) (form : Form) :
    x.addSuffix form name = .ok (.join form ⟨.head, none⟩ .dot) := by
  obtain ⟨definition, hdot, hstressed, hera⟩ := h
  simp [addSuffix, hdot, hstressed, hera, bind, Except.bind, pure, Except.pure]

theorem Expansion.addPrefix_of_dots {name : String} (h : x.Dots (.affix (.pre name))) (form : Form) :
    x.addPrefix form name = .ok (.join .dot ⟨.tail, none⟩ form) := by
  obtain ⟨definition, hdot, hstressed, hera⟩ := h
  simp [addPrefix, hdot, hstressed, hera, bind, Except.bind, pure, Except.pure]

theorem Expansion.frame_outline {f : Frame} (h : ∀ m ∈ f.mentions, x.Dots m) (form : Form) :
    x.frame f form = .ok (f.outline form) := by
  obtain ⟨hsuffixes, hprefixes⟩ := List.forall_mem_append.1 h
  rw [List.forall_mem_map] at hsuffixes hprefixes
  rw [frame, foldlM_eq_ok_foldl fun name hname => addSuffix_of_dots (hsuffixes name hname)]
  exact foldlM_eq_ok_foldl (fun name hname => addPrefix_of_dots (hprefixes name hname)) _

theorem Word.expand_outline {w : Word} (h : ∀ m ∈ w.mentions, x.Dots m) :
    w.expand x = .ok w.outline := by
  induction w with
  | morpheme f m =>
    obtain ⟨hera, hframe⟩ := List.forall_mem_cons.1 h
    rw [expand, (hera : x.checkEra m.era = _)]
    exact Expansion.frame_outline hframe _
  | lexeme f l =>
    obtain ⟨hlexeme, hframe⟩ := List.forall_mem_cons.1 h
    rw [expand, (hlexeme : x.lexeme l = _)]
    exact Expansion.frame_outline hframe _
  | bracket f w ih =>
    obtain ⟨hinner, hframe⟩ := List.forall_mem_append.1 h
    rw [expand, ih hinner]
    exact Expansion.frame_outline hframe _
  | join head j tail ihh iht =>
    obtain ⟨hera, hsides⟩ := List.forall_mem_cons.1 h
    obtain ⟨hhead, htail⟩ := List.forall_mem_append.1 hsides
    rw [expand, (hera : x.checkEra j.era = _), ihh hhead, iht htail]
    rfl

end

namespace Lexicon

def sampleEntry (key : Scope × String) : Entry :=
  ⟨none, ⟨key.2, some key.1⟩, .empty, .morpheme .empty .dot, "n.", ""⟩

def sampleAffix (key : Scope × Affix) : AffixDefinition :=
  ⟨false, key.2, .empty, none, some (.word (.morpheme .empty .dot)), [], ""⟩

/-- The entry that a name asks for in a scope. -/
def entryKey? (scope : Scope) : Mention → Option (Scope × String)
  | .lexeme l => some (l.scope.getD scope, l.name)
  | _ => none

/-- The affix that a name asks for in a scope. -/
def affixKey? (scope : Scope) : Mention → Option (Scope × Affix)
  | .affix a => some (scope, a)
  | _ => none

/-- A lexicon in which everything named stands for the same morpheme. -/
def sample (scope : Scope) (named : List Mention) : Lexicon :=
  { Lexicon.empty with
    entries := (named.filterMap (entryKey? scope)).map fun key => (key, sampleEntry key)
    affixes := (named.filterMap (affixKey? scope)).map fun key => (key, sampleAffix key) }

/-- What a scope defines itself is found there. -/
theorem firstIn_scopeChain {κ α : Type} [BEq κ] {definitions : List ((Scope × κ) × α)} {name : κ}
    {scope : Scope} {found : α} (lex : Lexicon) (h : definitions.lookup (scope, name) = some found) :
    firstIn definitions name (lex.scopeChain scope) = some (scope, found) := by
  obtain ⟨rest, hrest⟩ := List.head?_eq_some_iff.1 (lex.head?_scopeChain scope)
  simp [firstIn, hrest, h]

variable {scope : Scope} {named : List Mention}

theorem mem_entryKeys {l : Lexeme} (h : .lexeme l ∈ named) :
    (l.scope.getD scope, l.name) ∈ named.filterMap (entryKey? scope) :=
  List.mem_filterMap.2 ⟨_, h, rfl⟩

theorem mem_affixKeys {a : Affix} (h : .affix a ∈ named) :
    (scope, a) ∈ named.filterMap (affixKey? scope) :=
  List.mem_filterMap.2 ⟨_, h, rfl⟩

theorem findEntry_sample {l : Lexeme} (h : .lexeme l ∈ named) :
    (sample scope named).findEntry l.name (l.scope.getD scope) =
      .ok (l.scope.getD scope, sampleEntry (l.scope.getD scope, l.name)) := by
  have hlookup : (sample scope named).entries.lookup (l.scope.getD scope, l.name) = some _ :=
    List.lookup_graph sampleEntry (mem_entryKeys h)
  rw [findEntry, firstIn_scopeChain _ hlookup]

theorem findAffix_sample {a : Affix} (h : .affix a ∈ named) :
    (sample scope named).findAffix a scope = .ok (scope, sampleAffix (scope, a)) := by
  have hlookup : (sample scope named).affixes.lookup (scope, a) = some _ :=
    List.lookup_graph sampleAffix (mem_affixKeys h)
  rw [findAffix, firstIn_scopeChain _ hlookup]

/-- There is a definition behind each lexeme and affix, so resolution goes deep enough to reach it. -/
theorem dots_sample {m : Mention} (hm : m ∈ named) :
    let lex := sample scope named
    (lex.expansion (lex.resolveWithin (lex.entries.length + lex.affixes.length)) [] scope).Dots m := by
  intro lex
  cases m with
  | era e => cases e <;> rfl
  | lexeme l =>
    have hentries : 0 < lex.entries.length := by
      simpa only [lex, sample, List.length_map] using List.length_pos_of_mem (mem_entryKeys hm)
    obtain ⟨depth, hdepth⟩ := Nat.exists_eq_add_one.2 (Nat.add_pos_left hentries lex.affixes.length)
    rw [hdepth]
    change lexemeForm _ _ _ _ _ = _
    rw [lexemeForm, findEntry_sample hm]
    rfl
  | affix a =>
    have haffixes : 0 < lex.affixes.length := by
      simpa only [lex, sample, List.length_map] using List.length_pos_of_mem (mem_affixKeys hm)
    obtain ⟨depth, hdepth⟩ := Nat.exists_eq_add_one.2 (Nat.add_pos_right lex.entries.length haffixes)
    rw [hdepth]
    refine ⟨sampleAffix (scope, a), ?_, rfl, rfl⟩
    change affixForm _ _ _ _ _ = _
    rw [affixForm, findAffix_sample hm]
    rfl

theorem resolve_sample {w : Word} (h : ∀ m ∈ w.mentions, m ∈ named) :
    (sample scope named).resolve w scope = .ok w.outline :=
  Word.expand_outline fun m hm => dots_sample (h m hm)

end Lexicon

/-! ## Words read again -/

/-- A word is read back from its notation as one word. That word stands for the same in every lexicon
and every scope exactly if no bracket puts suffixes around a part with prefixes in front of it. -/
theorem Sentence.rereads_alike_iff {text : String} {sentence : Sentence} {w : Word}
    (h : Sentence.parse text = .ok sentence) (hw : w ∈ sentence.words) :
    ∃ again, Sentence.parse w.render = .ok ⟨.empty, [again]⟩ ∧
      ((∀ (lex : Lexicon) (scope : Scope), lex.resolve again scope = lex.resolve w scope) ↔
        w.SuffixesFirst) := by
  have hwritable := Sentence.writable_of_parse h w hw
  refine ⟨w.flat, Sentence.parse_render hwritable, fun hall => ?_, fun hfirst lex scope => ?_⟩
  · have halike := hall (.sample .root (w.flat.mentions ++ w.mentions)) .root
    rw [Lexicon.resolve_sample fun m hm => List.mem_append_left _ hm,
      Lexicon.resolve_sample fun m hm => List.mem_append_right _ hm] at halike
    exact Word.suffixesFirst_of_outline (Except.ok.inj halike)
  · exact Lexicon.resolve_flat hfirst lex scope

/-- A plural around a negation. -/
def pluralOfNegation : Word :=
  .bracket ⟨[], ["PL"]⟩ (.lexeme ⟨["NEG"], []⟩ ⟨"x", none⟩)

/-- Read again, the plural is that of the stem and the negation is around it. -/
theorem Sentence.rereads_alike_plural_of_negation :
    Sentence.parse "\"NEG.<x>\".PL" = .ok ⟨.empty, [pluralOfNegation]⟩ ∧
      pluralOfNegation.render = "NEG.<x>.PL" ∧
      ∃ again, Sentence.parse pluralOfNegation.render = .ok ⟨.empty, [again]⟩ ∧
        ¬ ∀ (lex : Lexicon) (scope : Scope),
          lex.resolve again scope = lex.resolve pluralOfNegation scope := by
  have hread : Sentence.parse "\"NEG.<x>\".PL" = .ok ⟨.empty, [pluralOfNegation]⟩ := by rfl
  obtain ⟨again, hagain, hiff⟩ := Sentence.rereads_alike_iff hread (List.mem_singleton_self _)
  refine ⟨hread, by decide, again, hagain, fun hall => ?_⟩
  have hfirst := hiff.1 hall
  simp [pluralOfNegation, Word.SuffixesFirst, Word.prefixesInFront] at hfirst

/-! ## Forms read again -/

namespace Form

/-- A form as a word, in which every morpheme stands for itself. -/
def toWord : Form → Word
  | leaf m => .morpheme .empty m
  | join h j t => .join h.toWord j t.toWord

theorem isJoin_toWord (f : Form) : f.toWord.isJoin = f.isJoin := by
  cases f <;> rfl

theorem render_toWord (f : Form) : f.toWord.render = f.render := by
  induction f with
  | leaf m => exact Frame.around_empty _
  | join h j t ihh iht =>
    rw [toWord, Word.render, isJoin_toWord, isJoin_toWord, ihh, iht, render]

theorem plain_toWord (f : Form) : f.toWord.Plain := by
  induction f with
  | leaf m => trivial
  | join h j t ihh iht => exact ⟨ihh, iht⟩

theorem writable_toWord {f : Form} (hforms : ∀ m ∈ f.leaves, IsName Reading.isFormChar m.form)
    (heras : ∀ e ∈ f.eras, IsName Reading.isIdentChar e.name) : f.toWord.Writable := by
  induction f with
  | leaf m =>
    have hframe : Frame.empty.Writable := ⟨by simp [Frame.empty], by simp [Frame.empty]⟩
    exact ⟨hframe, hforms m (by simp), fun e he => heras e (by simpa [eras] using he)⟩
  | join h j t ihh iht =>
    simp only [leaves_join, eras, List.forall_mem_append] at hforms heras
    exact ⟨ihh hforms.1 heras.1.1, fun e he => heras.1.2 e (by simpa using he),
      iht hforms.2 heras.2⟩

theorem expand_toWord {x : Expansion} {f : Form} (hnone : x.checkEra none = .ok ())
    (h : ∀ e ∈ f.eras, x.checkEra (some e) = .ok ()) : f.toWord.expand x = .ok f := by
  have hcheck : ∀ era : Option Era, (∀ e ∈ era.toList, x.checkEra (some e) = .ok ()) →
      x.checkEra era = .ok () := by
    intro era hera
    cases era with
    | none => exact hnone
    | some e => exact hera e (by simp)
  induction f with
  | leaf m =>
    rw [toWord, Word.expand, hcheck m.era h]
    rfl
  | join head j tail ihh iht =>
    simp only [eras, List.forall_mem_append] at h
    rw [toWord, Word.expand, hcheck j.era h.1.2, ihh h.1.1, iht h.2]
    rfl

/-- A form that can be written is read back from its notation as one word without tags, and that word
is resolved to the form wherever the rules know its eras. -/
theorem read_back {f : Form} (hforms : ∀ m ∈ f.leaves, IsName Reading.isFormChar m.form)
    (heras : ∀ e ∈ f.eras, IsName Reading.isIdentChar e.name) :
    ∃ w, Sentence.parse f.render = .ok ⟨.empty, [w]⟩ ∧
      ∀ (lex : Lexicon) (scope : Scope),
        (∀ order ∈ lex.order, ∀ e ∈ f.eras, order.contains e = true) →
          lex.resolve w scope = .ok f := by
  refine ⟨f.toWord, ?_, fun lex scope hknown => ?_⟩
  · rw [← render_toWord]
    exact Sentence.parse_render_of_plain f.plain_toWord (writable_toWord hforms heras)
  · refine expand_toWord rfl fun e he => ?_
    change lex.checkEra (some e) = _
    cases horder : lex.order with
    | none => simp [Lexicon.checkEra, horder]
    | some order => simp [Lexicon.checkEra, horder, hknown order horder e he]

/-- A compound of two joins, with eras on a morpheme and on a joiner. -/
def compoundOfCompounds : Form :=
  .join (.join (.leaf ⟨"ata", none⟩) ⟨.head, none⟩ (.leaf ⟨"ti", some ⟨"lenition"⟩⟩))
    ⟨.tail, some ⟨"rhotacism"⟩⟩
    (.join (.leaf ⟨"ne", none⟩) ⟨.tail, none⟩ (.leaf ⟨"li", none⟩))

theorem read_back_compound_of_compounds :
    ∃ w, Sentence.parse "\"*ata !+ *ti@lenition\" +!@rhotacism \"*ne +! *li\"" =
        .ok ⟨.empty, [w]⟩ ∧
      (Lexicon.empty.withOrder ⟨["lenition", "rhotacism"], by decide⟩).resolve w .root =
        .ok compoundOfCompounds := by
  obtain ⟨w, hread, hresolve⟩ := read_back (f := compoundOfCompounds) (by decide) (by decide)
  refine ⟨w, hread, hresolve _ _ ?_⟩
  rintro order ⟨⟩
  decide

end Form

end Etymon
