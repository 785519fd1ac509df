import Etymon.Lexicon.Resolution
import Etymon.Proofs.Action
import Mathlib.Logic.Relation

/-!
# Unfolding

What a word stands for when every name in it is replaced by its definition, however often a
definition is met on the way. A word has at most one unfolding; it has none when a definition is
missing or refused, and none when a definition is met inside itself.

## Main definitions

* `Lexicon.Unfolds`: a part of a word unfolds to a form.
* `Word.mentions`: what a word names, in the order in which it is unfolded.
* `Lexicon.DefinitionKey`: a definition by its name and scope, with the text it is known by.
* `Lexicon.Uses`: unfolding one definition meets another.
* `Lexicon.MeetsCycle`: unfolding a word meets a definition that is met again inside itself.

## Main results

* `Lexicon.Unfolds.unique`: a part has one unfolding.
* `Lexicon.Unfolds.met`: everything that an unfolding word names unfolds.
* `Lexicon.Met.not_cyclic`: a definition in the unfolding of a word is not met inside itself.
-/

namespace Etymon

open Relation

/-! ## Unfolding a word -/

/-- The sources of a formless affix, the first two joined first. -/
def joinedSources (first : Lexeme) (rest : List Lexeme) : Word :=
  rest.foldl (fun joined l => .join joined ⟨.head, none⟩ (.ofLexeme l)) (.ofLexeme first)

/-- The word that an affix stands for: its own word, its only source inside the affixes of its
pattern, or its sources joined from left to right. -/
def AffixDefinition.word (definition : AffixDefinition) (a : Affix) : Except Error Word :=
  match definition.form, definition.sources with
  | some (.word w), _ => .ok w
  | some (.pattern f), [source] => .ok (.bracket f (.ofLexeme source))
  | some (.pattern _), sources => .error (.variableSources a sources.length)
  | none, [] => .error (.formlessAffix a)
  | none, first :: rest => .ok (joinedSources first rest)

/-- What has an unfolding: a word, a lexeme, an affix, and a form that affixes are still to be put
around. -/
inductive Part where
  | word (w : Word)
  | affixes (f : Frame) (stem : Form)
  | lexeme (l : Lexeme)
  | affix (a : Affix)

namespace Lexicon

variable {lex : Lexicon} {scope : Scope} {w : Word}

/-- A part unfolds to a form in a scope. A lexeme unfolds as the word of its entry and an affix as its
own word, each in the scope where it was found. -/
inductive Unfolds (lex : Lexicon) : Scope → Part → Form → Prop
  | morpheme {scope : Scope} {f : Frame} {m : Morpheme} {form : Form}
      (era : lex.checkEra m.era = .ok ())
      (around : lex.Unfolds scope (.affixes f (.leaf m)) form) :
      lex.Unfolds scope (.word (.morpheme f m)) form
  | lexeme {scope : Scope} {f : Frame} {l : Lexeme} {stem form : Form}
      (inside : lex.Unfolds scope (.lexeme l) stem)
      (around : lex.Unfolds scope (.affixes f stem) form) :
      lex.Unfolds scope (.word (.lexeme f l)) form
  | bracket {scope : Scope} {f : Frame} {w : Word} {stem form : Form}
      (inside : lex.Unfolds scope (.word w) stem)
      (around : lex.Unfolds scope (.affixes f stem) form) :
      lex.Unfolds scope (.word (.bracket f w)) form
  | join {scope : Scope} {h t : Word} {j : Joiner} {head tail : Form}
      (era : lex.checkEra j.era = .ok ())
      (left : lex.Unfolds scope (.word h) head) (right : lex.Unfolds scope (.word t) tail) :
      lex.Unfolds scope (.word (.join h j t)) (.join head j tail)
  | bare {scope : Scope} {form : Form} : lex.Unfolds scope (.affixes ⟨[], []⟩ form) form
  | suffixed {scope owner : Scope} {prefixes rest : List String} {name : String}
      {definition : AffixDefinition} {stem affixForm form : Form}
      (found : lex.findAffix (.suf name) scope = .ok (owner, definition))
      (affix : lex.Unfolds scope (.affix (.suf name)) affixForm)
      (around : lex.Unfolds scope
        (.affixes ⟨prefixes, rest⟩
          (.join stem ⟨if definition.stressed then .tail else .head, definition.era⟩ affixForm)) form) :
      lex.Unfolds scope (.affixes ⟨prefixes, name :: rest⟩ stem) form
  | prefixed {scope owner : Scope} {rest : List String} {name : String}
      {definition : AffixDefinition} {stem affixForm form : Form}
      (found : lex.findAffix (.pre name) scope = .ok (owner, definition))
      (affix : lex.Unfolds scope (.affix (.pre name)) affixForm)
      (around : lex.Unfolds scope
        (.affixes ⟨rest, []⟩
          (.join affixForm ⟨if definition.stressed then .head else .tail, definition.era⟩ stem)) form) :
      lex.Unfolds scope (.affixes ⟨name :: rest, []⟩ stem) form
  | entry {scope owner : Scope} {l : Lexeme} {entry : Entry} {form : Form}
      (found : lex.findEntry l.name (l.scope.getD scope) = .ok (owner, entry))
      (inside : lex.Unfolds owner (.word entry.form) form) :
      lex.Unfolds scope (.lexeme l) form
  | affix {scope owner : Scope} {a : Affix} {definition : AffixDefinition} {w : Word} {form : Form}
      (found : lex.findAffix a scope = .ok (owner, definition))
      (era : lex.checkEra definition.era = .ok ()) (word : definition.word a = .ok w)
      (inside : lex.Unfolds owner (.word w) form) :
      lex.Unfolds scope (.affix a) form

theorem Unfolds.unique {part : Part} {form form' : Form} (h : lex.Unfolds scope part form)
    (h' : lex.Unfolds scope part form') : form = form' := by
  induction h generalizing form' with
  | morpheme _ _ ih =>
    cases h' with
    | morpheme _ around => exact ih around
  | lexeme _ _ ihStem ihAround =>
    cases h' with
    | lexeme stem around =>
      obtain rfl := ihStem stem
      exact ihAround around
  | bracket _ _ ihStem ihAround =>
    cases h' with
    | bracket stem around =>
      obtain rfl := ihStem stem
      exact ihAround around
  | join _ _ _ ihHead ihTail =>
    cases h' with
    | join _ head tail => rw [ihHead head, ihTail tail]
  | bare =>
    cases h'
    rfl
  | suffixed found _ _ ihAffix ihAround =>
    cases h' with
    | suffixed found' affix around =>
      cases found.symm.trans found'
      obtain rfl := ihAffix affix
      exact ihAround around
  | prefixed found _ _ ihAffix ihAround =>
    cases h' with
    | prefixed found' affix around =>
      cases found.symm.trans found'
      obtain rfl := ihAffix affix
      exact ihAround around
  | entry found _ ih =>
    cases h' with
    | entry found' inside =>
      cases found.symm.trans found'
      exact ih inside
  | affix found _ word _ ih =>
    cases h' with
    | affix found' _ word' inside =>
      cases found.symm.trans found'
      cases word.symm.trans word'
      exact ih inside

end Lexicon

/-! ## What a word names -/

/-- Something that a word names and that has to be looked up. -/
inductive Mention where
  | era (era : Option Era)
  | lexeme (l : Lexeme)
  | affix (a : Affix)

/-- The affixes in the order in which they are put around the stem. -/
def Frame.mentions (f : Frame) : List Mention :=
  (f.suffixes.map fun name => .affix (.suf name)) ++ f.prefixes.map fun name => .affix (.pre name)

/-- What a word names, in the order in which it is unfolded. -/
def Word.mentions : Word → List Mention
  | .morpheme f m => .era m.era :: f.mentions
  | .lexeme f l => .lexeme l :: f.mentions
  | .bracket f w => w.mentions ++ f.mentions
  | .join h j t => .era j.era :: (h.mentions ++ t.mentions)

def Part.mentions : Part → List Mention
  | .word w => w.mentions
  | .affixes f _ => f.mentions
  | .lexeme l => [.lexeme l]
  | .affix a => [.affix a]

/-! ## Definitions that meet definitions -/

namespace Lexicon

/-- A definition by its name and the scope it stands in. -/
inductive DefinitionKey where
  | entry (name : String) (owner : Scope)
  | affix (a : Affix) (owner : Scope)
  deriving DecidableEq, Repr

namespace DefinitionKey

def scope : DefinitionKey → Scope
  | entry _ owner => owner
  | affix _ owner => owner

/-- The text that the definition is known by while it is being expanded. -/
def text : DefinitionKey → String
  | entry name owner => entryKey name owner
  | affix a owner => affixKey a owner

end DefinitionKey

variable {lex : Lexicon} {scope : Scope} {w : Word} {m : Mention} {key : DefinitionKey}

/-- The word that a definition stands for. -/
def wordOf (lex : Lexicon) : DefinitionKey → Except Error Word
  | .entry name scope =>
    match lex.entries.lookup (scope, name) with
    | some entry => .ok entry.form
    | none => .error (.missingLexeme name scope)
  | .affix a scope =>
    match lex.affixes.lookup (scope, a) with
    | some definition => definition.word a
    | none => .error (.missingAffix a scope)

/-- The definition behind what a word names in a scope; there is none behind an era. -/
def opens (lex : Lexicon) (scope : Scope) : Mention → Except Error (Option DefinitionKey)
  | .era e => do
    lex.checkEra e
    return none
  | .lexeme l => do
    let (owner, _) ← lex.findEntry l.name (l.scope.getD scope)
    return some (.entry l.name owner)
  | .affix a => do
    let (owner, definition) ← lex.findAffix a scope
    lex.checkEra definition.era
    return some (.affix a owner)

/-- The era is known, or the lexeme or affix has an unfolding. -/
def Met (lex : Lexicon) (scope : Scope) : Mention → Prop
  | .era e => lex.checkEra e = .ok ()
  | .lexeme l => ∃ form, lex.Unfolds scope (.lexeme l) form
  | .affix a => ∃ form, lex.Unfolds scope (.affix a) form

/-- Unfolding the word gets as far as the definition: everything that is named before unfolds. -/
def Reaches (lex : Lexicon) (scope : Scope) (w : Word) (key : DefinitionKey) : Prop :=
  ∃ before m after, w.mentions = before ++ m :: after ∧ (∀ earlier ∈ before, lex.Met scope earlier) ∧
    lex.opens scope m = .ok (some key)

/-- Unfolding the word of one definition gets as far as the other. -/
def Uses (lex : Lexicon) (outer inner : DefinitionKey) : Prop :=
  ∃ w, lex.wordOf outer = .ok w ∧ lex.Reaches outer.scope w inner

/-- The definition is met again inside its own unfolding. -/
def Cyclic (lex : Lexicon) (key : DefinitionKey) : Prop :=
  TransGen lex.Uses key key

/-- Unfolding the word meets, at any depth, a definition that is met again inside itself. -/
def MeetsCycle (lex : Lexicon) (scope : Scope) (w : Word) : Prop :=
  ∃ first key, lex.Reaches scope w first ∧ ReflTransGen lex.Uses first key ∧ lex.Cyclic key

theorem lookup_of_firstIn {κ α : Type} [BEq κ] {definitions : List ((Scope × κ) × α)} {name : κ}
    {chain : List Scope} {owner : Scope} {found : α}
    (h : firstIn definitions name chain = some (owner, found)) :
    definitions.lookup (owner, name) = some found := by
  obtain ⟨scope, -, hscope⟩ := List.exists_of_findSome?_eq_some h
  obtain ⟨definition, hlookup, hpair⟩ := Option.map_eq_some_iff.1 hscope
  cases hpair
  exact hlookup

theorem lookup_of_findEntry {name : String} {owner : Scope} {entry : Entry}
    (h : lex.findEntry name scope = .ok (owner, entry)) :
    lex.entries.lookup (owner, name) = some entry := by
  unfold findEntry at h
  split at h
  · cases h
    exact lookup_of_firstIn ‹_›
  · cases h

theorem lookup_of_findAffix {a : Affix} {owner : Scope} {definition : AffixDefinition}
    (h : lex.findAffix a scope = .ok (owner, definition)) :
    lex.affixes.lookup (owner, a) = some definition := by
  unfold findAffix at h
  split at h
  · cases h
    exact lookup_of_firstIn ‹_›
  · cases h

theorem wordOf_entry {name : String} {owner : Scope} {entry : Entry}
    (h : lex.findEntry name scope = .ok (owner, entry)) :
    lex.wordOf (.entry name owner) = .ok entry.form := by
  simp [wordOf, lookup_of_findEntry h]

theorem wordOf_affix {a : Affix} {owner : Scope} {definition : AffixDefinition}
    (h : lex.findAffix a scope = .ok (owner, definition)) :
    lex.wordOf (.affix a owner) = definition.word a := by
  simp [wordOf, lookup_of_findAffix h]

theorem opens_era {e : Option Era} {behind : Option DefinitionKey} :
    lex.opens scope (.era e) = .ok behind ↔ lex.checkEra e = .ok () ∧ behind = none := by
  simp [opens, bind_eq_ok_iff, pure, Except.pure, @eq_comm _ behind, Unique.exists_iff]

theorem opens_lexeme {l : Lexeme} {behind : Option DefinitionKey} :
    lex.opens scope (.lexeme l) = .ok behind ↔ ∃ owner entry,
      lex.findEntry l.name (l.scope.getD scope) = .ok (owner, entry) ∧
      behind = some (.entry l.name owner) := by
  simp [opens, bind_eq_ok_iff, pure, Except.pure, @eq_comm _ behind]

theorem opens_affix {a : Affix} {behind : Option DefinitionKey} :
    lex.opens scope (.affix a) = .ok behind ↔ ∃ owner definition,
      lex.findAffix a scope = .ok (owner, definition) ∧ lex.checkEra definition.era = .ok () ∧
      behind = some (.affix a owner) := by
  simp [opens, bind_eq_ok_iff, pure, Except.pure, @eq_comm _ behind, Unique.exists_iff]

/-- What is named unfolds when it opens nothing, or a definition whose word unfolds. -/
theorem met_iff : lex.Met scope m ↔ ∃ behind, lex.opens scope m = .ok behind ∧
    ∀ key ∈ behind, ∃ w form, lex.wordOf key = .ok w ∧ lex.Unfolds key.scope (.word w) form := by
  cases m with
  | era e => simp [Met, opens_era]
  | lexeme l =>
    simp only [Met, opens_lexeme]
    constructor
    · rintro ⟨form, h⟩
      cases h with
      | entry found inside =>
        refine ⟨_, ⟨_, _, found, rfl⟩, ?_⟩
        rintro key ⟨⟩
        exact ⟨_, form, wordOf_entry found, inside⟩
    · rintro ⟨_, ⟨owner, entry, found, rfl⟩, h⟩
      obtain ⟨w, form, hword, inside⟩ := h _ rfl
      cases (wordOf_entry found).symm.trans hword
      exact ⟨form, .entry found inside⟩
  | affix a =>
    simp only [Met, opens_affix]
    constructor
    · rintro ⟨form, h⟩
      cases h with
      | affix found era word inside =>
        refine ⟨_, ⟨_, _, found, era, rfl⟩, ?_⟩
        rintro key ⟨⟩
        exact ⟨_, form, (wordOf_affix found).trans word, inside⟩
    · rintro ⟨_, ⟨owner, definition, found, era, rfl⟩, h⟩
      obtain ⟨w, form, hword, inside⟩ := h _ rfl
      exact ⟨form, .affix found era ((wordOf_affix found).symm.trans hword) inside⟩

/-- Everything that an unfolding part names unfolds. -/
theorem Unfolds.met {part : Part} {form : Form} (h : lex.Unfolds scope part form) :
    ∀ m ∈ part.mentions, lex.Met scope m := by
  induction h with
  | morpheme era _ ih => exact List.forall_mem_cons.2 ⟨era, ih⟩
  | lexeme stem _ _ ih => exact List.forall_mem_cons.2 ⟨⟨_, stem⟩, ih⟩
  | bracket _ _ ihStem ihAround => exact List.forall_mem_append.2 ⟨ihStem, ihAround⟩
  | join era _ _ ihHead ihTail =>
    exact List.forall_mem_cons.2 ⟨era, List.forall_mem_append.2 ⟨ihHead, ihTail⟩⟩
  | bare => exact List.forall_mem_nil _
  | suffixed _ affix _ _ ih => exact List.forall_mem_cons.2 ⟨⟨_, affix⟩, ih⟩
  | prefixed _ affix _ _ ih => exact List.forall_mem_cons.2 ⟨⟨_, affix⟩, ih⟩
  | entry found inside _ => exact List.forall_mem_singleton.2 ⟨_, .entry found inside⟩
  | affix found era word inside _ =>
    exact List.forall_mem_singleton.2 ⟨_, .affix found era word inside⟩

/-- Definitions met in an unfolding nest finitely deep: those that a word names are unfolded by parts
of its own unfolding. -/
theorem Unfolds.acc {part : Part} {form : Form} (h : lex.Unfolds scope part form) :
    ∀ m ∈ part.mentions, ∀ key, lex.opens scope m = .ok (some key) →
      Acc (fun inner outer => lex.Uses outer inner) key := by
  induction h with
  | morpheme _ _ ih =>
    refine List.forall_mem_cons.2 ⟨fun key hkey => ?_, ih⟩
    cases (opens_era.1 hkey).2
  | lexeme _ _ ihStem ihAround =>
    exact List.forall_mem_cons.2 ⟨ihStem _ (List.mem_singleton_self _), ihAround⟩
  | bracket _ _ ihStem ihAround => exact List.forall_mem_append.2 ⟨ihStem, ihAround⟩
  | join _ _ _ ihHead ihTail =>
    refine List.forall_mem_cons.2 ⟨fun key hkey => ?_, List.forall_mem_append.2 ⟨ihHead, ihTail⟩⟩
    cases (opens_era.1 hkey).2
  | bare => exact List.forall_mem_nil _
  | suffixed _ _ _ ihAffix ihAround =>
    exact List.forall_mem_cons.2 ⟨ihAffix _ (List.mem_singleton_self _), ihAround⟩
  | prefixed _ _ _ ihAffix ihAround =>
    exact List.forall_mem_cons.2 ⟨ihAffix _ (List.mem_singleton_self _), ihAround⟩
  | entry found _ ih =>
    refine List.forall_mem_singleton.2 fun key hkey => ?_
    obtain ⟨_, _, found', ⟨⟩⟩ := opens_lexeme.1 hkey
    cases found.symm.trans found'
    refine .intro _ fun inner ⟨w, hword, before, m, after, hw, _, hm⟩ => ?_
    cases (wordOf_entry found).symm.trans hword
    exact ih m (by simp [Part.mentions, hw]) inner hm
  | affix found _ word _ ih =>
    refine List.forall_mem_singleton.2 fun key hkey => ?_
    obtain ⟨_, _, found', _, ⟨⟩⟩ := opens_affix.1 hkey
    cases found.symm.trans found'
    refine .intro _ fun inner ⟨w', hword, before, m, after, hw, _, hm⟩ => ?_
    cases word.symm.trans ((wordOf_affix found).symm.trans hword)
    exact ih m (by simp [Part.mentions, hw]) inner hm

theorem not_cyclic_of_acc (h : Acc (fun inner outer => lex.Uses outer inner) key) :
    ¬ lex.Cyclic key := by
  have hacc : Acc (TransGen fun inner outer => lex.Uses outer inner) key := h.transGen
  clear h
  intro hcyclic
  induction hacc with
  | intro key _ ih => exact ih key (transGen_swap.2 hcyclic) hcyclic

/-- A definition in the unfolding of what a word names is not met inside itself. -/
theorem Met.not_cyclic (h : lex.Met scope m) (hkey : lex.opens scope m = .ok (some key)) :
    ¬ lex.Cyclic key := by
  cases m with
  | era e => cases (opens_era.1 hkey).2
  | lexeme l =>
    obtain ⟨form, h⟩ := h
    exact not_cyclic_of_acc (h.acc _ (List.mem_singleton_self _) key hkey)
  | affix a =>
    obtain ⟨form, h⟩ := h
    exact not_cyclic_of_acc (h.acc _ (List.mem_singleton_self _) key hkey)

end Lexicon

end Etymon
