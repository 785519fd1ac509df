import Etymon.Proofs.Unfolding
import Mathlib.Data.List.Chain
import Mathlib.Data.List.Perm.Subperm
import Mathlib.Data.Set.Operations

/-!
# Resolution is unfolding

Resolving expands definitions inside definitions, and refuses one whose key is that of a definition which
is being expanded. The keys that are open at a time are pairwise different, so definitions nest no deeper
than there are definitions; and where keys tell definitions apart, a word that has an unfolding never comes
back to an open one.

## Main definitions

* `Expansion.meets`: whether something that a word names can be looked up and expanded.
* `Lexicon.resolveFrom`: resolution to a depth, with anything put in the place of what lies deeper.
* `Lexicon.Open`: the keys that can be open at a time.
* `Lexicon.KeysApart`: no two definitions of a lexicon have one key.
* `Lexicon.Along`: the definitions on the way to a word.

## Main results

* `Word.expand_eq_error_iff`: expanding fails at the first thing named that fails.
* `Lexicon.resolveFrom_eq`: nothing lies deeper than the lexicon has definitions.
* `Lexicon.KeysApart.resolve_eq_ok_iff`: where keys tell definitions apart, resolving gives the unfolding
  exactly when there is one.
* `Lexicon.KeysApart.resolve_cyclic_iff`: and it reports a cyclic definition exactly when it meets one.
-/

namespace Etymon

open Relation

/-! ## Expanding a word -/

/-- Whether something that a word names can be looked up and expanded. -/
def Expansion.meets (x : Expansion) : Mention → Except Error Unit
  | .era e => x.checkEra e
  | .lexeme l => (x.lexeme l).map fun _ => ()
  | .affix a => (x.affix a).map fun _ => ()

theorem forM_eq_error_iff {ε α : Type} {f : α → Except ε Unit} {as : List α} {e : ε} :
    forM as f = .error e ↔ ∃ before a after, as = before ++ a :: after ∧
      (∀ b ∈ before, f b = .ok ()) ∧ f a = .error e := by
  induction as with
  | nil => simp [pure, Except.pure]
  | cons a as ih =>
    rw [List.forM_cons]
    cases ha : f a with
    | error e' =>
      simp only [bind, Except.bind, Except.error.injEq]
      constructor
      · rintro rfl
        exact ⟨[], a, as, rfl, by simp, ha⟩
      · rintro ⟨before, b, after, has, hbefore, hb⟩
        cases before with
        | nil => cases has; exact Except.error.inj (ha.symm.trans hb)
        | cons c before => cases has; cases ha.symm.trans (hbefore _ List.mem_cons_self)
    | ok =>
      simp only [bind, Except.bind, ih]
      constructor
      · rintro ⟨before, b, after, rfl, hbefore, hb⟩
        exact ⟨a :: before, b, after, rfl, List.forall_mem_cons.2 ⟨ha, hbefore⟩, hb⟩
      · rintro ⟨before, b, after, has, hbefore, hb⟩
        cases before with
        | nil => cases has; cases ha.symm.trans hb
        | cons c before =>
          cases has
          exact ⟨before, b, after, rfl, (List.forall_mem_cons.1 hbefore).2, hb⟩

section

variable (x : Expansion)

theorem Expansion.foldlM_addSuffix_meets (names : List String) (form : Form) :
    (names.foldlM x.addSuffix form).map (fun _ => ()) =
      forM (names.map fun name => Mention.affix (.suf name)) x.meets := by
  induction names generalizing form with
  | nil => rfl
  | cons name names ih =>
    rw [List.foldlM_cons, List.map_cons, List.forM_cons]
    cases h : x.affix (.suf name) with
    | error e => simp [Expansion.addSuffix, Expansion.meets, h, bind, Except.bind, Except.map]
    | ok pair => simpa [Expansion.addSuffix, Expansion.meets, h, bind, Except.bind, Except.map, pure,
        Except.pure] using ih _

theorem Expansion.foldlM_addPrefix_meets (names : List String) (form : Form) :
    (names.foldlM x.addPrefix form).map (fun _ => ()) =
      forM (names.map fun name => Mention.affix (.pre name)) x.meets := by
  induction names generalizing form with
  | nil => rfl
  | cons name names ih =>
    rw [List.foldlM_cons, List.map_cons, List.forM_cons]
    cases h : x.affix (.pre name) with
    | error e => simp [Expansion.addPrefix, Expansion.meets, h, bind, Except.bind, Except.map]
    | ok pair => simpa [Expansion.addPrefix, Expansion.meets, h, bind, Except.bind, Except.map, pure,
        Except.pure] using ih _

theorem map_unit {ε : Type} (y : Except ε Unit) : y.map (fun _ => ()) = y := by
  cases y <;> rfl

theorem map_bind_unit {ε α β : Type} (y : Except ε α) (f : α → Except ε β) (steps : Except ε Unit)
    (next : Except ε Unit) (hy : y.map (fun _ => ()) = steps)
    (hf : ∀ a, (f a).map (fun _ => ()) = next) :
    (y >>= f).map (fun _ => ()) = steps >>= fun _ => next := by
  subst hy
  cases y with
  | error e => rfl
  | ok a => exact hf a

theorem Expansion.frame_meets (f : Frame) (form : Form) :
    (x.frame f form).map (fun _ => ()) = forM f.mentions x.meets := by
  rw [Frame.mentions, List.forM_append]
  exact map_bind_unit _ _ _ _ (x.foldlM_addSuffix_meets _ form) fun _ => x.foldlM_addPrefix_meets _ _

/-- Whether a word can be expanded is decided by what it names, one after another. -/
theorem Word.expand_meets (w : Word) :
    (w.expand x).map (fun _ => ()) = forM w.mentions x.meets := by
  induction w with
  | morpheme f m =>
    rw [Word.mentions, List.forM_cons]
    exact map_bind_unit _ _ _ _ (map_unit _) fun _ => x.frame_meets f _
  | lexeme f l =>
    rw [Word.mentions, List.forM_cons]
    exact map_bind_unit _ _ _ _ rfl fun _ => x.frame_meets f _
  | bracket f w ih =>
    rw [Word.mentions, List.forM_append]
    exact map_bind_unit _ _ _ _ ih fun _ => x.frame_meets f _
  | join h j t ihHead ihTail =>
    rw [Word.mentions, List.forM_cons, List.forM_append]
    refine map_bind_unit _ _ _ _ (map_unit _) fun _ => ?_
    refine map_bind_unit _ _ _ _ ihHead fun head => ?_
    rw [← ihTail]
    cases t.expand x <;> rfl

/-- Expanding fails at the first thing named that cannot be expanded, and as that one does. -/
theorem Word.expand_eq_error_iff {w : Word} {e : Error} :
    w.expand x = .error e ↔ ∃ before m after, w.mentions = before ++ m :: after ∧
      (∀ earlier ∈ before, x.meets earlier = .ok ()) ∧ x.meets m = .error e := by
  rw [← forM_eq_error_iff, ← w.expand_meets x]
  cases w.expand x <;> simp [Except.map]

end

namespace Lexicon

variable {lex : Lexicon} {scope : Scope} {w : Word} {key : DefinitionKey}
  {visiting : List String} {bottom : List String → Scope → Word → Except Error Form}
  {depth : Nat} {form : Form} {through : String}

section

variable {x : Expansion} {stem inner : Form} {prefixes suffixes : List String}

theorem unfolds_of_prefixes
    (haffix : ∀ a definition affixForm, x.affix a = .ok (definition, affixForm) →
      (∃ owner, lex.findAffix a scope = .ok (owner, definition)) ∧
        lex.Unfolds scope (.affix a) affixForm)
    (h : prefixes.foldlM x.addPrefix stem = .ok form) :
    lex.Unfolds scope (.affixes ⟨prefixes, []⟩ stem) form := by
  induction prefixes generalizing stem with
  | nil =>
    cases h
    exact .bare
  | cons name rest ih =>
    rw [List.foldlM_cons, Expansion.addPrefix] at h
    obtain ⟨_, hname, hrest⟩ := bind_eq_ok_iff.1 h
    obtain ⟨⟨definition, affixForm⟩, hx, ⟨⟩⟩ := bind_eq_ok_iff.1 hname
    obtain ⟨⟨owner, found⟩, hunfolds⟩ := haffix _ _ _ hx
    exact .prefixed found hunfolds (ih hrest)

theorem unfolds_of_suffixes
    (haffix : ∀ a definition affixForm, x.affix a = .ok (definition, affixForm) →
      (∃ owner, lex.findAffix a scope = .ok (owner, definition)) ∧
        lex.Unfolds scope (.affix a) affixForm)
    (h : suffixes.foldlM x.addSuffix stem = .ok inner)
    (around : lex.Unfolds scope (.affixes ⟨prefixes, []⟩ inner) form) :
    lex.Unfolds scope (.affixes ⟨prefixes, suffixes⟩ stem) form := by
  induction suffixes generalizing stem with
  | nil =>
    cases h
    exact around
  | cons name rest ih =>
    rw [List.foldlM_cons, Expansion.addSuffix] at h
    obtain ⟨_, hname, hrest⟩ := bind_eq_ok_iff.1 h
    obtain ⟨⟨definition, affixForm⟩, hx, ⟨⟩⟩ := bind_eq_ok_iff.1 hname
    obtain ⟨⟨owner, found⟩, hunfolds⟩ := haffix _ _ _ hx
    exact .suffixed found hunfolds (ih hrest)

/-- Expanding with unfoldings in the place of lexemes and affixes gives the unfolding. -/
theorem unfolds_of_expand (hera : ∀ e, x.checkEra e = .ok () → lex.checkEra e = .ok ())
    (hlexeme : ∀ l form, x.lexeme l = .ok form → lex.Unfolds scope (.lexeme l) form)
    (haffix : ∀ a definition affixForm, x.affix a = .ok (definition, affixForm) →
      (∃ owner, lex.findAffix a scope = .ok (owner, definition)) ∧
        lex.Unfolds scope (.affix a) affixForm)
    (h : w.expand x = .ok form) : lex.Unfolds scope (.word w) form := by
  have hframe : ∀ (f : Frame) (stem form : Form), x.frame f stem = .ok form →
      lex.Unfolds scope (.affixes f stem) form := by
    intro f stem form h
    obtain ⟨inner, hsuffixes, hprefixes⟩ := bind_eq_ok_iff.1 h
    exact unfolds_of_suffixes haffix hsuffixes (unfolds_of_prefixes haffix hprefixes)
  induction w generalizing form with
  | morpheme f m =>
    obtain ⟨_, era, h⟩ := bind_eq_ok_iff.1 h
    exact .morpheme (hera _ era) (hframe _ _ _ h)
  | lexeme f l =>
    obtain ⟨stem, hstem, h⟩ := bind_eq_ok_iff.1 h
    exact .lexeme (hlexeme _ _ hstem) (hframe _ _ _ h)
  | bracket f w ih =>
    obtain ⟨stem, hstem, h⟩ := bind_eq_ok_iff.1 h
    exact .bracket (ih hstem) (hframe _ _ _ h)
  | join left j right ihLeft ihRight =>
    obtain ⟨_, era, h⟩ := bind_eq_ok_iff.1 h
    obtain ⟨head, hleft, h⟩ := bind_eq_ok_iff.1 h
    obtain ⟨tail, hright, ⟨⟩⟩ := bind_eq_ok_iff.1 h
    exact .join (hera _ era) (ihLeft hleft) (ihRight hright)

end

/-! ## Resolving to a depth -/

/-- What lexemes and affixes stand for, given a way to resolve their words. -/
def expansion (lex : Lexicon) (resolve : List String → Scope → Word → Except Error Form)
    (visiting : List String) (scope : Scope) : Expansion where
  checkEra := lex.checkEra
  lexeme := lex.lexemeForm resolve visiting scope
  affix := lex.affixForm resolve visiting scope

/-- Resolution to a depth, with `bottom` in the place of everything that lies deeper. -/
def resolveFrom (lex : Lexicon) (bottom : List String → Scope → Word → Except Error Form) :
    Nat → List String → Scope → Word → Except Error Form
  | 0, visiting, scope, w => bottom visiting scope w
  | depth + 1, visiting, scope, w =>
    w.expand (lex.expansion (lex.resolveFrom bottom depth) visiting scope)

theorem resolveWithin_eq_resolveFrom (lex : Lexicon) (depth : Nat) :
    lex.resolveWithin depth =
      lex.resolveFrom (fun _ _ w => .error (.cyclicDefinition w.render)) depth := by
  induction depth with
  | zero => rfl
  | succ depth ih =>
    funext visiting scope w
    rw [resolveWithin, resolveFrom, ih, expansion]

/-- The form of the word of a definition. -/
def formOf (lex : Lexicon) (bottom : List String → Scope → Word → Except Error Form)
    (depth : Nat) (visiting : List String) (key : DefinitionKey) (name : String) :
    Except Error Form :=
  enter visiting key.text name fun inside => do
    lex.resolveFrom bottom depth inside key.scope (← lex.wordOf key)

theorem lexemeForm_eq (l : Lexeme) :
    lex.lexemeForm (lex.resolveFrom bottom depth) visiting scope l = (do
      let (owner, _) ← lex.findEntry l.name (l.scope.getD scope)
      lex.formOf bottom depth visiting (.entry l.name owner) l.render) := by
  unfold lexemeForm
  cases found : lex.findEntry l.name (l.scope.getD scope) with
  | error e => rfl
  | ok pair => simp [formOf, wordOf_entry found, DefinitionKey.scope, DefinitionKey.text, bind,
      Except.bind]

theorem expand_joinedSources (x : Expansion) (a : Affix) (first : Lexeme) (rest : List Lexeme)
    (hnone : x.checkEra none = .ok ()) :
    (joinedSources first rest).expand x = joinSources x.lexeme a (first :: rest) := by
  have hbare : ∀ l, (Word.ofLexeme l).expand x = x.lexeme l := by
    intro l
    cases h : x.lexeme l <;>
      simp [Word.ofLexeme, Word.expand, Expansion.frame, Frame.empty, h, bind, Except.bind, pure,
        Except.pure]
  suffices ∀ joined : Word,
      (rest.foldl (fun joined l => .join joined ⟨.head, none⟩ (.ofLexeme l)) joined).expand x =
        joined.expand x >>= fun form =>
          rest.foldlM (fun form l => return .join form ⟨.head, none⟩ (← x.lexeme l)) form by
    rw [joinedSources, this, hbare]
    rfl
  intro joined
  induction rest generalizing joined with
  | nil => cases h : joined.expand x <;> simp [h, bind, Except.bind, pure, Except.pure]
  | cons l rest ih =>
    rw [List.foldl_cons, ih, Word.expand, hbare, hnone]
    cases joined.expand x <;> cases h : x.lexeme l <;>
      simp [h, bind, Except.bind, pure, Except.pure]

/-- An affix stands for what its word stands for; a formless one has its sources joined in the place of a
word, one level higher. -/
theorem exists_ownForm_eq (lex : Lexicon) (bottom : List String → Scope → Word → Except Error Form)
    (depth : Nat) (a : Affix) (definition : AffixDefinition) :
    ∃ depth', depth ≤ depth' ∧ depth' ≤ depth + 1 ∧ ∀ visiting owner,
      lex.ownForm (lex.resolveFrom bottom depth) visiting owner a definition = (do
        lex.resolveFrom bottom depth' visiting owner (← definition.word a)) := by
  unfold ownForm AffixDefinition.word
  cases definition.form with
  | none =>
    refine ⟨depth + 1, Nat.le_succ depth, Nat.le_refl _, fun visiting owner => ?_⟩
    cases definition.sources with
    | nil => rfl
    | cons first rest =>
      exact (expand_joinedSources (lex.expansion _ visiting owner) a first rest rfl).symm
  | some affixForm =>
    refine ⟨depth, Nat.le_refl depth, Nat.le_succ depth, fun visiting owner => ?_⟩
    cases affixForm with
    | word w => rfl
    | pattern f =>
      rcases definition.sources with - | ⟨source, - | ⟨_, _⟩⟩ <;> rfl

theorem exists_affixForm_eq (lex : Lexicon)
    (bottom : List String → Scope → Word → Except Error Form) (depth : Nat)
    (visiting : List String) (scope : Scope) (a : Affix) : ∃ depth', depth ≤ depth' ∧
    lex.affixForm (lex.resolveFrom bottom depth) visiting scope a = (do
      let (owner, definition) ← lex.findAffix a scope
      lex.checkEra definition.era
      return (definition, ← lex.formOf bottom depth' visiting (.affix a owner) a.render)) := by
  unfold affixForm
  cases found : lex.findAffix a scope with
  | error e => exact ⟨depth, Nat.le_refl depth, rfl⟩
  | ok pair =>
    obtain ⟨owner, definition⟩ := pair
    obtain ⟨depth', hle, -, hown⟩ := exists_ownForm_eq lex bottom depth a definition
    refine ⟨depth', hle, ?_⟩
    simp only [bind, Except.bind, formOf, wordOf_affix found, hown, DefinitionKey.scope,
      DefinitionKey.text]

/-! ## Open definitions -/

/-- The definitions of a lexicon. -/
def keys (lex : Lexicon) : List DefinitionKey :=
  (lex.entries.map fun e => .entry e.1.2 e.1.1) ++ lex.affixes.map fun a => .affix a.1.2 a.1.1

theorem mem_keys_of_lookup_entry {name : String} {owner : Scope} {entry : Entry}
    (h : lex.entries.lookup (owner, name) = some entry) : .entry name owner ∈ lex.keys := by
  obtain ⟨before, after, hentries, -⟩ := List.lookup_eq_some_iff.1 h
  simp [keys, hentries]

theorem mem_keys_of_lookup_affix {a : Affix} {owner : Scope} {definition : AffixDefinition}
    (h : lex.affixes.lookup (owner, a) = some definition) : .affix a owner ∈ lex.keys := by
  obtain ⟨before, after, haffixes, -⟩ := List.lookup_eq_some_iff.1 h
  simp [keys, haffixes]

theorem mem_keys_of_wordOf (h : lex.wordOf key = .ok w) : key ∈ lex.keys := by
  cases key with
  | entry name owner =>
    cases hlookup : lex.entries.lookup (owner, name) with
    | none => simp [wordOf, hlookup] at h
    | some entry => exact mem_keys_of_lookup_entry hlookup
  | affix a owner =>
    cases hlookup : lex.affixes.lookup (owner, a) with
    | none => simp [wordOf, hlookup] at h
    | some definition => exact mem_keys_of_lookup_affix hlookup

theorem mem_keys_of_opens {m : Mention} (h : lex.opens scope m = .ok (some key)) : key ∈ lex.keys := by
  cases m with
  | era e => cases (opens_era.1 h).2
  | lexeme l =>
    obtain ⟨owner, entry, found, ⟨⟩⟩ := opens_lexeme.1 h
    exact mem_keys_of_lookup_entry (lookup_of_findEntry found)
  | affix a =>
    obtain ⟨owner, definition, found, -, ⟨⟩⟩ := opens_affix.1 h
    exact mem_keys_of_lookup_affix (lookup_of_findAffix found)

/-- Keys of definitions that can be open at a time, the innermost first. -/
structure Open (lex : Lexicon) (visiting : List String) : Prop where
  nodup : visiting.Nodup
  defined : visiting ⊆ lex.keys.map DefinitionKey.text

theorem Open.nil : lex.Open [] := ⟨.nil, List.nil_subset _⟩

theorem Open.cons (h : lex.Open visiting) (hkey : key.text ∉ visiting)
    (hword : lex.wordOf key = .ok w) : lex.Open (key.text :: visiting) :=
  ⟨List.nodup_cons.2 ⟨hkey, h.nodup⟩,
    List.cons_subset.2 ⟨List.mem_map_of_mem (mem_keys_of_wordOf hword), h.defined⟩⟩

theorem Open.length_le (h : lex.Open visiting) :
    visiting.length ≤ lex.entries.length + lex.affixes.length := by
  have hle := (List.subperm_of_subset h.nodup h.defined).length_le
  simpa [keys] using hle

/-- Goes into definitions one after another until no definition is left to go into. -/
theorem Open.induction {motive : ∀ visiting, lex.Open visiting → Prop}
    (step : ∀ visiting (h : lex.Open visiting),
      (∀ key w (hkey : key.text ∉ visiting) (hword : lex.wordOf key = .ok w),
        motive (key.text :: visiting) (h.cons hkey hword)) → motive visiting h)
    (visiting : List String) (h : lex.Open visiting) : motive visiting h := by
  generalize hleft : lex.entries.length + lex.affixes.length - visiting.length = left
  induction left using Nat.strongRecOn generalizing visiting with
  | ind left ih =>
    refine step visiting h fun key w hkey hword => ?_
    have hle := (h.cons hkey hword).length_le
    rw [List.length_cons] at hle
    exact ih _ (by rw [List.length_cons]; omega) _ _ rfl

/-- With these keys open, resolution to this depth reaches every definition that is left. -/
def Deep (lex : Lexicon) (depth : Nat) (visiting : List String) : Prop :=
  lex.entries.length + lex.affixes.length < depth + visiting.length

theorem Deep.exists_succ (h : lex.Deep depth visiting) (hopen : lex.Open visiting) :
    ∃ less, depth = less + 1 ∧ ∀ depth', less ≤ depth' → ∀ key, lex.Deep depth' (key :: visiting) := by
  have hle := hopen.length_le
  unfold Deep at h
  refine ⟨depth - 1, by omega, fun depth' hdepth' key => ?_⟩
  unfold Deep
  rw [List.length_cons]
  omega

theorem formOf_eq_ok_iff {name : String} : lex.formOf bottom depth visiting key name = .ok form ↔
    key.text ∉ visiting ∧ ∃ w, lex.wordOf key = .ok w ∧
      lex.resolveFrom bottom depth (key.text :: visiting) key.scope w = .ok form := by
  rw [formOf, enter_eq_ok_iff, bind_eq_ok_iff]

theorem wordOf_ne_cyclic : lex.wordOf key ≠ .error (.cyclicDefinition through) := by
  cases key with
  | entry name owner =>
    simp only [wordOf]
    split <;> simp
  | affix a owner =>
    simp only [wordOf]
    split
    · simp only [AffixDefinition.word]
      split <;> simp
    · simp

/-- The form of a definition is refused as cyclic when its key is open, or inside its word. -/
theorem formOf_cyclic_iff {name : String} :
    (∃ through, lex.formOf bottom depth visiting key name = .error (.cyclicDefinition through)) ↔
      key.text ∈ visiting ∨ key.text ∉ visiting ∧ ∃ w through, lex.wordOf key = .ok w ∧
        lex.resolveFrom bottom depth (key.text :: visiting) key.scope w =
          .error (.cyclicDefinition through) := by
  by_cases hkey : key.text ∈ visiting
  · simp [formOf, enter, hkey]
  · cases hword : lex.wordOf key with
    | ok w => simp [formOf, enter, hkey, hword, bind, Except.bind]
    | error e =>
      have hne : ∀ through, e ≠ .cyclicDefinition through :=
        fun through he => wordOf_ne_cyclic (he ▸ hword)
      simp [formOf, enter, hkey, hword, bind, Except.bind, hne]

theorem formOf_eq {bottom' : List String → Scope → Word → Except Error Form}
    {depth' : Nat} {name : String}
    (h : ∀ w, key.text ∉ visiting → lex.wordOf key = .ok w →
      lex.resolveFrom bottom depth (key.text :: visiting) key.scope w =
        lex.resolveFrom bottom' depth' (key.text :: visiting) key.scope w) :
    lex.formOf bottom depth visiting key name = lex.formOf bottom' depth' visiting key name := by
  unfold formOf enter
  split
  · rfl
  · rename_i hkey
    rw [List.contains_iff_mem] at hkey
    cases hword : lex.wordOf key with
    | error e => rfl
    | ok w => exact h w hkey hword

/-- What stands in the place of deeper levels makes no difference: there are none. -/
theorem resolveFrom_eq {bottom' : List String → Scope → Word → Except Error Form}
    {depth' : Nat} (h : lex.Open visiting) (hdepth : lex.Deep depth visiting)
    (hdepth' : lex.Deep depth' visiting) (scope : Scope) (w : Word) :
    lex.resolveFrom bottom depth visiting scope w =
      lex.resolveFrom bottom' depth' visiting scope w := by
  induction visiting, h using Open.induction generalizing depth depth' scope w with
  | step visiting h ih =>
  obtain ⟨less, rfl, hless⟩ := hdepth.exists_succ h
  obtain ⟨less', rfl, hless'⟩ := hdepth'.exists_succ h
  suffices lex.expansion (lex.resolveFrom bottom less) visiting scope =
      lex.expansion (lex.resolveFrom bottom' less') visiting scope by
    rw [resolveFrom, resolveFrom, this]
  unfold expansion
  congr 1
  · funext l
    rw [lexemeForm_eq, lexemeForm_eq]
    refine bind_congr fun pair => formOf_eq fun w hkey hword => ?_
    exact ih _ w hkey hword (hless _ (Nat.le_refl _) _) (hless' _ (Nat.le_refl _) _) _ w
  · funext a
    obtain ⟨level, hlevel, heq⟩ := exists_affixForm_eq lex bottom less visiting scope a
    obtain ⟨level', hlevel', heq'⟩ := exists_affixForm_eq lex bottom' less' visiting scope a
    rw [heq, heq']
    refine bind_congr fun pair => bind_congr fun _ => ?_
    rw [formOf_eq fun w hkey hword =>
      ih _ w hkey hword (hless _ hlevel _) (hless' _ hlevel' _) _ w]

/-! ## What resolution answers -/

theorem exists_meets_eq (lex : Lexicon)
    (bottom : List String → Scope → Word → Except Error Form) (depth : Nat)
    (visiting : List String) (scope : Scope) (m : Mention) :
    ∃ depth' name, depth ≤ depth' ∧
      (lex.expansion (lex.resolveFrom bottom depth) visiting scope).meets m = (do
        match ← lex.opens scope m with
        | none => return ()
        | some key => (lex.formOf bottom depth' visiting key name).map fun _ => ()) := by
  cases m with
  | era e =>
    refine ⟨depth, "", Nat.le_refl depth, ?_⟩
    simp only [Expansion.meets, expansion, opens]
    cases lex.checkEra e <;> rfl
  | lexeme l =>
    refine ⟨depth, l.render, Nat.le_refl depth, ?_⟩
    simp only [Expansion.meets, expansion, opens, lexemeForm_eq]
    cases lex.findEntry l.name (l.scope.getD scope) <;> rfl
  | affix a =>
    obtain ⟨level, hlevel, heq⟩ := exists_affixForm_eq lex bottom depth visiting scope a
    refine ⟨level, a.render, hlevel, ?_⟩
    simp only [Expansion.meets, expansion, opens, heq]
    cases lex.findAffix a scope with
    | error e => rfl
    | ok pair =>
      obtain ⟨owner, definition⟩ := pair
      simp only [bind, Except.bind]
      cases lex.checkEra definition.era with
      | error e => rfl
      | ok =>
        simp only [pure, Except.pure]
        cases lex.formOf bottom level visiting (.affix a owner) a.render <;> rfl

/-- A form that resolution gives is the unfolding. -/
theorem unfolds_of_resolveFrom (h : lex.Open visiting) (hdepth : lex.Deep depth visiting)
    (hform : lex.resolveFrom bottom depth visiting scope w = .ok form) :
    lex.Unfolds scope (.word w) form := by
  induction visiting, h using Open.induction generalizing depth scope w form with
  | step visiting h ih =>
  obtain ⟨less, rfl, hless⟩ := hdepth.exists_succ h
  have hinside : ∀ {level : Nat} {key : DefinitionKey} {name : String} {form : Form}, less ≤ level →
      lex.formOf bottom level visiting key name = .ok form →
        ∃ w, lex.wordOf key = .ok w ∧ lex.Unfolds key.scope (.word w) form := by
    intro level key name form hlevel hform
    obtain ⟨hkey, w, hword, hform⟩ := formOf_eq_ok_iff.1 hform
    exact ⟨w, hword, ih key w hkey hword (hless _ hlevel _) hform⟩
  refine unfolds_of_expand (x := lex.expansion (lex.resolveFrom bottom less) visiting scope)
    (fun e he => he) ?_ ?_ hform
  · intro l form hl
    obtain ⟨⟨owner, entry⟩, found, hl⟩ := bind_eq_ok_iff.1 ((lexemeForm_eq l).symm.trans hl)
    obtain ⟨w, hword, hunfolds⟩ := hinside (Nat.le_refl _) hl
    cases (wordOf_entry found).symm.trans hword
    exact .entry found hunfolds
  · intro a definition affixForm ha
    obtain ⟨level, hlevel, heq⟩ := exists_affixForm_eq lex bottom less visiting scope a
    obtain ⟨⟨owner, _⟩, found, ha⟩ := bind_eq_ok_iff.1 (heq.symm.trans ha)
    obtain ⟨_, era, ha⟩ := bind_eq_ok_iff.1 ha
    obtain ⟨_, hform, ⟨⟩⟩ := bind_eq_ok_iff.1 ha
    obtain ⟨w, hword, hunfolds⟩ := hinside hlevel hform
    exact ⟨⟨owner, found⟩, .affix found era ((wordOf_affix found).symm.trans hword) hunfolds⟩

/-- No two definitions of the lexicon have one key. -/
def KeysApart (lex : Lexicon) : Prop :=
  Set.InjOn DefinitionKey.text {key | key ∈ lex.keys}

/-- Definitions with the open keys lead to the word: each one is met in the word of the next, and the
word is that of the innermost one. -/
structure Along (lex : Lexicon) (path : List DefinitionKey) (visiting : List String) (scope : Scope)
    (w : Word) : Prop where
  keys : path.map DefinitionKey.text = visiting
  defined : path ⊆ lex.keys
  chain : path.IsChain fun inner outer => lex.Uses outer inner
  here : ∀ outer ∈ path.head?, outer.scope = scope ∧ lex.wordOf outer = .ok w

variable {path : List DefinitionKey}

theorem Along.nil (lex : Lexicon) (scope : Scope) (w : Word) : lex.Along [] [] scope w :=
  ⟨rfl, List.nil_subset _, .nil, by simp⟩

theorem Along.isChain_cons (h : lex.Along path visiting scope w) (hkey : lex.Reaches scope w key) :
    (key :: path).IsChain fun inner outer => lex.Uses outer inner := by
  refine List.isChain_cons.2 ⟨fun outer houter => ?_, h.chain⟩
  obtain ⟨rfl, hword⟩ := h.here outer houter
  exact ⟨w, hword, hkey⟩

theorem Along.cons {w' : Word} (h : lex.Along path visiting scope w) (hkey : lex.Reaches scope w key)
    (hword : lex.wordOf key = .ok w') :
    lex.Along (key :: path) (key.text :: visiting) key.scope w' := by
  refine ⟨congrArg (key.text :: ·) h.keys, List.cons_subset.2 ⟨mem_keys_of_wordOf hword, h.defined⟩,
    h.isChain_cons hkey, ?_⟩
  rintro outer ⟨⟩
  exact ⟨rfl, hword⟩

/-- A definition whose key is open is on the way, since no other one has its key; so it is met inside
itself. -/
theorem Along.cyclic (h : lex.Along path visiting scope w) (hkeys : lex.KeysApart)
    (hkey : lex.Reaches scope w key) (hmem : key.text ∈ visiting) : lex.Cyclic key := by
  rw [← h.keys] at hmem
  obtain ⟨key', hkey', htext⟩ := List.mem_map.1 hmem
  have ⟨_, _, _, _, _, hopens⟩ := hkey
  obtain rfl : key' = key := hkeys (h.defined hkey') (mem_keys_of_opens hopens) htext
  have hchain : (key' :: path).IsChain (Function.swap (TransGen lex.Uses)) :=
    (h.isChain_cons hkey).imp fun inner outer huses => TransGen.single huses
  exact List.rel_of_pairwise_cons (List.isChain_iff_pairwise.1 hchain) hkey'

/-- What is named can be expanded only when it unfolds. -/
theorem met_of_meets {m : Mention} (h : lex.Open visiting)
    (hless : ∀ depth', depth ≤ depth' → ∀ key, lex.Deep depth' (key :: visiting))
    (hm : (lex.expansion (lex.resolveFrom bottom depth) visiting scope).meets m = .ok ()) :
    lex.Met scope m := by
  obtain ⟨level, name, hlevel, heq⟩ := exists_meets_eq lex bottom depth visiting scope m
  obtain ⟨behind, hopens, hm⟩ := bind_eq_ok_iff.1 (heq.symm.trans hm)
  refine met_iff.2 ⟨behind, hopens, ?_⟩
  rintro key ⟨⟩
  cases hform : lex.formOf bottom level visiting key name with
  | error e => simp [hform, Except.map] at hm
  | ok form =>
    obtain ⟨hkey, w, hword, hresolve⟩ := formOf_eq_ok_iff.1 hform
    have hopen := h.cons hkey hword
    exact ⟨w, form, hword, unfolds_of_resolveFrom hopen (hless level hlevel _) hresolve⟩

/-- What is named and unfolds can be expanded: it is not open, because it is not met inside itself. -/
theorem meets_of_met {before after : List Mention} {m : Mention} (hkeys : lex.KeysApart)
    (halong : lex.Along path visiting scope w) (hmentions : w.mentions = before ++ m :: after)
    (hbefore : ∀ earlier ∈ before, lex.Met scope earlier) (hmet : lex.Met scope m)
    (hinside : ∀ key w' form level, lex.Reaches scope w key → key.text ∉ visiting →
      lex.wordOf key = .ok w' → depth ≤ level → lex.Unfolds key.scope (.word w') form →
        lex.resolveFrom bottom level (key.text :: visiting) key.scope w' = .ok form) :
    (lex.expansion (lex.resolveFrom bottom depth) visiting scope).meets m = .ok () := by
  obtain ⟨behind, hopens, hbehind⟩ := met_iff.1 hmet
  obtain ⟨level, name, hlevel, heq⟩ := exists_meets_eq lex bottom depth visiting scope m
  rw [heq, hopens]
  cases behind with
  | none => rfl
  | some key =>
    obtain ⟨w', form, hword, hunfolds⟩ := hbehind key rfl
    have hreaches : lex.Reaches scope w key := ⟨before, m, after, hmentions, hbefore, hopens⟩
    have hkey : key.text ∉ visiting := fun hkey =>
      hmet.not_cyclic hopens (halong.cyclic hkeys hreaches hkey)
    have hform : lex.formOf bottom level visiting key name = .ok form := formOf_eq_ok_iff.2
      ⟨hkey, w', hword, hinside key w' form level hreaches hkey hword hlevel hunfolds⟩
    simp [bind, Except.bind, hform, Except.map]

/-- A word that has an unfolding is resolved to it: nothing on the way is open already. -/
theorem resolveFrom_of_unfolds (hkeys : lex.KeysApart) (h : lex.Open visiting)
    (hdepth : lex.Deep depth visiting) (halong : lex.Along path visiting scope w)
    (hform : lex.Unfolds scope (.word w) form) :
    lex.resolveFrom bottom depth visiting scope w = .ok form := by
  induction visiting, h using Open.induction generalizing depth scope w form path with
  | step visiting h ih =>
  obtain ⟨less, rfl, hless⟩ := hdepth.exists_succ h
  cases hresult : lex.resolveFrom bottom (less + 1) visiting scope w with
  | ok form' => rw [hform.unique (unfolds_of_resolveFrom h hdepth hresult)]
  | error e =>
    obtain ⟨before, m, after, hmentions, -, hm⟩ := (Word.expand_eq_error_iff _).1 hresult
    have hmet : ∀ m' ∈ before ++ m :: after, lex.Met scope m' := hmentions ▸ hform.met
    have hmeets := meets_of_met hkeys halong hmentions
      (fun m' hm' => hmet m' (List.mem_append_left _ hm')) (hmet m (by simp))
      fun key w' form level hreaches hkey hword hlevel hunfolds =>
        ih key w' hkey hword (hless level hlevel _) (halong.cons hreaches hword) hunfolds
    cases hm.symm.trans hmeets

theorem checkEra_ne_cyclic {e : Option Era} : lex.checkEra e ≠ .error (.cyclicDefinition through) := by
  unfold checkEra
  repeat' split
  all_goals simp

theorem opens_ne_cyclic {m : Mention} : lex.opens scope m ≠ .error (.cyclicDefinition through) := by
  intro h
  cases m with
  | era e =>
    cases hera : lex.checkEra e with
    | error e' =>
      exact checkEra_ne_cyclic (hera.trans (by simpa [opens, hera, bind, Except.bind] using h))
    | ok => simp [opens, hera, bind, Except.bind, pure, Except.pure] at h
  | lexeme l =>
    simp only [opens, findEntry] at h
    split at h <;> simp [bind, Except.bind, pure, Except.pure] at h
  | affix a =>
    simp only [opens, findAffix] at h
    split at h
    · rename_i found _
      cases hera : lex.checkEra found.2.era with
      | error e' => exact checkEra_ne_cyclic (hera.trans (by simpa [hera, bind, Except.bind] using h))
      | ok => simp [hera, bind, Except.bind, pure, Except.pure] at h
    · simp [bind, Except.bind] at h

/-- A cyclic definition is reported only where a definition is met inside itself. -/
theorem meetsCycle_of_resolveFrom (hkeys : lex.KeysApart) (h : lex.Open visiting)
    (hdepth : lex.Deep depth visiting) (halong : lex.Along path visiting scope w)
    (hresult : lex.resolveFrom bottom depth visiting scope w = .error (.cyclicDefinition through)) :
    lex.MeetsCycle scope w := by
  induction visiting, h using Open.induction generalizing depth scope w through path with
  | step visiting h ih =>
  obtain ⟨less, rfl, hless⟩ := hdepth.exists_succ h
  obtain ⟨before, m, after, hmentions, hbefore, hm⟩ := (Word.expand_eq_error_iff _).1 hresult
  obtain ⟨level, name, hlevel, heq⟩ := exists_meets_eq lex bottom less visiting scope m
  rw [heq] at hm
  cases hopens : lex.opens scope m with
  | error e =>
    rw [hopens] at hm
    cases hm
    exact absurd hopens opens_ne_cyclic
  | ok behind =>
    rw [hopens] at hm
    cases behind with
    | none => cases hm
    | some key =>
      have hreaches : lex.Reaches scope w key :=
        ⟨before, m, after, hmentions, fun m' hm' => met_of_meets h hless (hbefore m' hm'), hopens⟩
      have hform : ∃ through, lex.formOf bottom level visiting key name =
          .error (.cyclicDefinition through) := by
        refine ⟨through, ?_⟩
        cases hform : lex.formOf bottom level visiting key name <;>
          simp_all [bind, Except.bind, Except.map]
      rcases formOf_cyclic_iff.1 hform with hkey | ⟨hkey, w', through', hword, hinside⟩
      · exact ⟨key, key, hreaches, .refl, halong.cyclic hkeys hreaches hkey⟩
      · obtain ⟨first, last, hfirst, hlast, hcyclic⟩ :=
          ih key w' hkey hword (hless level hlevel _) (halong.cons hreaches hword) hinside
        exact ⟨key, last, hreaches, .head ⟨w', hword, hfirst⟩ hlast, hcyclic⟩

/-- Below a definition from which a cycle can be reached, there is one from which it can be reached. -/
theorem exists_meetsCycle {first last : DefinitionKey} (hlast : ReflTransGen lex.Uses first last)
    (hcyclic : lex.Cyclic last) : ∃ w, lex.wordOf first = .ok w ∧ lex.MeetsCycle first.scope w := by
  have hcycle : TransGen lex.Uses first last := hcyclic.trans_right hlast
  obtain ⟨next, ⟨w, hword, hreaches⟩, hnext⟩ := TransGen.head'_iff.1 hcycle
  exact ⟨w, hword, next, last, hreaches, hnext, hcyclic⟩

/-- A word that meets a cycle is refused as cyclic: everything named before the way into the cycle
unfolds, and the way comes back to a definition that is open. -/
theorem exists_resolveFrom_of_meetsCycle (hkeys : lex.KeysApart) (h : lex.Open visiting)
    (hdepth : lex.Deep depth visiting) (halong : lex.Along path visiting scope w)
    (hcycle : lex.MeetsCycle scope w) :
    ∃ through, lex.resolveFrom bottom depth visiting scope w = .error (.cyclicDefinition through) := by
  induction visiting, h using Open.induction generalizing depth scope w path with
  | step visiting h ih =>
  obtain ⟨less, rfl, hless⟩ := hdepth.exists_succ h
  obtain ⟨key, last, hreaches, hlast, hcyclic⟩ := hcycle
  have ⟨before, m, after, hmentions, hbefore, hopens⟩ := hreaches
  obtain ⟨level, name, hlevel, heq⟩ := exists_meets_eq lex bottom less visiting scope m
  obtain ⟨w', hword, hcycle⟩ := exists_meetsCycle hlast hcyclic
  obtain ⟨through, hform⟩ : ∃ through, lex.formOf bottom level visiting key name =
      .error (.cyclicDefinition through) := by
    refine formOf_cyclic_iff.2 ((Decidable.em _).imp_right fun hkey => ⟨hkey, w', ?_⟩)
    obtain ⟨through, hinside⟩ :=
      ih key w' hkey hword (hless level hlevel _) (halong.cons hreaches hword) hcycle
    exact ⟨through, hword, hinside⟩
  refine ⟨through, (Word.expand_eq_error_iff _).2 ⟨before, m, after, hmentions, ?_, ?_⟩⟩
  · intro earlier hearlier
    obtain ⟨before', after', rfl⟩ := List.append_of_mem hearlier
    have hsplit : w.mentions = before' ++ earlier :: (after' ++ m :: after) := by simp [hmentions]
    refine meets_of_met hkeys halong hsplit (fun m' hm' => hbefore m' (by simp [hm']))
      (hbefore earlier hearlier) ?_
    intro key w' form level hreaches hkey hword hlevel hunfolds
    exact resolveFrom_of_unfolds hkeys (h.cons hkey hword) (hless level hlevel _)
      (halong.cons hreaches hword) hunfolds
  · rw [heq, hopens]
    simp [bind, Except.bind, hform, Except.map]

theorem deep_nil (lex : Lexicon) : lex.Deep (lex.entries.length + lex.affixes.length + 1) [] := by
  simp [Deep]

/-- Resolving goes no deeper than the lexicon has definitions, whatever lies there. -/
theorem resolveFrom_eq_resolve (hdepth : lex.entries.length + lex.affixes.length < depth) :
    lex.resolveFrom bottom depth [] scope w = lex.resolve w scope := by
  rw [resolve, resolveWithin_eq_resolveFrom]
  exact resolveFrom_eq .nil (by simpa [Deep] using hdepth) lex.deep_nil scope w

/-- Resolving gives the unfolding, and nothing where there is none. -/
theorem KeysApart.resolve_eq_ok_iff (hkeys : lex.KeysApart) :
    lex.resolve w scope = .ok form ↔ lex.Unfolds scope (.word w) form := by
  rw [resolve, resolveWithin_eq_resolveFrom]
  exact ⟨unfolds_of_resolveFrom .nil lex.deep_nil,
    resolveFrom_of_unfolds hkeys .nil lex.deep_nil (.nil lex scope w)⟩

/-- A cyclic definition is reported where unfolding the word meets a definition that is met again inside
itself, and only there. -/
theorem KeysApart.resolve_cyclic_iff (hkeys : lex.KeysApart) :
    (∃ through, lex.resolve w scope = .error (.cyclicDefinition through)) ↔
      lex.MeetsCycle scope w := by
  rw [resolve, resolveWithin_eq_resolveFrom]
  constructor
  · rintro ⟨through, hresult⟩
    exact meetsCycle_of_resolveFrom hkeys .nil lex.deep_nil (.nil lex scope w) hresult
  · exact exists_resolveFrom_of_meetsCycle hkeys .nil lex.deep_nil (.nil lex scope w)

end Lexicon

end Etymon
