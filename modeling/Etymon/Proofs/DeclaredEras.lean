import Etymon.Lexicon.Resolution
import Etymon.Proofs.Action

/-!
# Eras of resolved forms

With an order of rules attached, resolving lets through only eras that the order declares, wherever
they come from: the word itself, an entry that is reached through it, the definition of an affix or
the form of one. What it refuses for its eras it would have given a form with an undeclared era, so
attaching an order takes exactly these forms away.

## Main definitions

* `Form.Declared`: every era in a form is declared.
* `Expansion.Restricts`: an expansion gives of another one's forms those with declared eras.
* `Lexicon.unordered`: a lexicon without its order of rules.

## Main results

* `Expansion.Restricts.expand_iff`: so do the words that are expanded.
* `Lexicon.resolve_withOrder_iff`: resolving with an order and without one.
* `Lexicon.eras_declared`: the same for everything that resolves words.
-/

namespace Etymon

variable {order : RuleOrder}

namespace Form

/-- Every era on a morpheme or on a joiner of the form is declared. -/
def Declared (order : RuleOrder) (form : Form) : Prop :=
  ∀ e ∈ form.eras, order.contains e = true

theorem declared_leaf {m : Morpheme} :
    (leaf m).Declared order ↔ ∀ e ∈ m.era, order.contains e = true := by
  simp [Declared, eras]

theorem declared_join {h t : Form} {j : Joiner} : (join h j t).Declared order ↔
    h.Declared order ∧ (∀ e ∈ j.era, order.contains e = true) ∧ t.Declared order := by
  simp only [Declared, eras, List.forall_mem_append, and_assoc, Option.mem_toList, Option.mem_def]

end Form

/-! ## Expansions that check eras -/

namespace Expansion

/-- The first expansion gives what the second one gives, as far as every era in it is declared. -/
structure Restricts (order : RuleOrder) (x x' : Expansion) : Prop where
  era : ∀ e, x.checkEra e = .ok () ↔ x'.checkEra e = .ok () ∧ ∀ era ∈ e, order.contains era = true
  lexeme : ∀ l form, x.lexeme l = .ok form ↔ x'.lexeme l = .ok form ∧ form.Declared order
  affix : ∀ a definition form, x.affix a = .ok (definition, form) ↔
    x'.affix a = .ok (definition, form) ∧ (∀ era ∈ definition.era, order.contains era = true) ∧
      form.Declared order

namespace Restricts

variable {x x' : Expansion} {stem form : Form}

/-- The stem and the affix stand in the form that they are joined to. -/
theorem addSuffix_iff (h : x.Restricts order x') (stem : Form) (name : String) (form : Form) :
    x.addSuffix stem name = .ok form ∧ stem.Declared order ↔
      x'.addSuffix stem name = .ok form ∧ form.Declared order := by
  simp only [addSuffix, bind_eq_ok_iff, Prod.exists, h.affix]
  constructor
  · rintro ⟨⟨definition, own, ⟨hown, hera, hdeclared⟩, ⟨⟩⟩, hstem⟩
    exact ⟨⟨definition, own, hown, rfl⟩, Form.declared_join.2 ⟨hstem, hera, hdeclared⟩⟩
  · rintro ⟨⟨definition, own, hown, ⟨⟩⟩, hform⟩
    obtain ⟨hstem, hera, hdeclared⟩ := Form.declared_join.1 hform
    exact ⟨⟨definition, own, ⟨hown, hera, hdeclared⟩, rfl⟩, hstem⟩

theorem addPrefix_iff (h : x.Restricts order x') (stem : Form) (name : String) (form : Form) :
    x.addPrefix stem name = .ok form ∧ stem.Declared order ↔
      x'.addPrefix stem name = .ok form ∧ form.Declared order := by
  simp only [addPrefix, bind_eq_ok_iff, Prod.exists, h.affix]
  constructor
  · rintro ⟨⟨definition, own, ⟨hown, hera, hdeclared⟩, ⟨⟩⟩, hstem⟩
    exact ⟨⟨definition, own, hown, rfl⟩, Form.declared_join.2 ⟨hdeclared, hera, hstem⟩⟩
  · rintro ⟨⟨definition, own, hown, ⟨⟩⟩, hform⟩
    obtain ⟨hdeclared, hera, hstem⟩ := Form.declared_join.1 hform
    exact ⟨⟨definition, own, ⟨hown, hera, hdeclared⟩, rfl⟩, hstem⟩

theorem frame_iff (h : x.Restricts order x') (f : Frame) :
    x.frame f stem = .ok form ∧ stem.Declared order ↔
      x'.frame f stem = .ok form ∧ form.Declared order := by
  simp only [frame, bind_eq_ok_iff]
  constructor
  · rintro ⟨⟨inner, hsuffixes, hprefixes⟩, hstem⟩
    obtain ⟨hsuffixes', hinner⟩ := (foldlM_and_iff h.addSuffix_iff).1 ⟨hsuffixes, hstem⟩
    obtain ⟨hprefixes', hform⟩ := (foldlM_and_iff h.addPrefix_iff).1 ⟨hprefixes, hinner⟩
    exact ⟨⟨inner, hsuffixes', hprefixes'⟩, hform⟩
  · rintro ⟨⟨inner, hsuffixes, hprefixes⟩, hform⟩
    obtain ⟨hprefixes', hinner⟩ := (foldlM_and_iff h.addPrefix_iff).2 ⟨hprefixes, hform⟩
    obtain ⟨hsuffixes', hstem⟩ := (foldlM_and_iff h.addSuffix_iff).2 ⟨hsuffixes, hinner⟩
    exact ⟨⟨inner, hsuffixes', hprefixes'⟩, hstem⟩

/-- A stem that is expanded, and then the affixes around it. -/
theorem framed_iff {outcome outcome' : Except Error Form} (h : x.Restricts order x') (f : Frame)
    (houtcome : ∀ stem, outcome = .ok stem ↔ outcome' = .ok stem ∧ stem.Declared order) :
    (do x.frame f (← outcome)) = .ok form ↔
      (do x'.frame f (← outcome')) = .ok form ∧ form.Declared order := by
  simp only [bind_eq_ok_iff, houtcome]
  constructor
  · rintro ⟨stem, ⟨hstem, hdeclared⟩, hframe⟩
    obtain ⟨hframe', hform⟩ := (h.frame_iff f).1 ⟨hframe, hdeclared⟩
    exact ⟨⟨stem, hstem, hframe'⟩, hform⟩
  · rintro ⟨⟨stem, hstem, hframe⟩, hform⟩
    obtain ⟨hframe', hdeclared⟩ := (h.frame_iff f).2 ⟨hframe, hform⟩
    exact ⟨stem, ⟨hstem, hdeclared⟩, hframe'⟩

/-- Every era that is checked while a word is expanded stands in the form that comes of it, that of an
affix on the joiner beside it. -/
theorem expand_iff (h : x.Restricts order x') {w : Word} :
    w.expand x = .ok form ↔ w.expand x' = .ok form ∧ form.Declared order := by
  induction w generalizing form with
  | morpheme f m =>
    simp only [Word.expand, bind_eq_ok_iff, h.era]
    constructor
    · rintro ⟨_, ⟨hera, hdeclared⟩, hframe⟩
      obtain ⟨hframe', hform⟩ := (h.frame_iff f).1 ⟨hframe, Form.declared_leaf.2 hdeclared⟩
      exact ⟨⟨_, hera, hframe'⟩, hform⟩
    · rintro ⟨⟨_, hera, hframe⟩, hform⟩
      obtain ⟨hframe', hdeclared⟩ := (h.frame_iff f).2 ⟨hframe, hform⟩
      exact ⟨(), ⟨hera, Form.declared_leaf.1 hdeclared⟩, hframe'⟩
  | lexeme f l => exact h.framed_iff f (h.lexeme l)
  | bracket f w ih => exact h.framed_iff f fun stem => ih
  | join head j tail ihHead ihTail =>
    simp only [Word.expand, bind_eq_ok_iff, h.era, ihHead, ihTail]
    constructor
    · rintro ⟨_, ⟨hera, hjoiner⟩, left, ⟨hleft, hhead⟩, right, ⟨hright, htail⟩, ⟨⟩⟩
      exact ⟨⟨_, hera, left, hleft, right, hright, rfl⟩, Form.declared_join.2 ⟨hhead, hjoiner, htail⟩⟩
    · rintro ⟨⟨_, hera, left, hleft, right, hright, ⟨⟩⟩, hform⟩
      obtain ⟨hhead, hjoiner, htail⟩ := Form.declared_join.1 hform
      exact ⟨(), ⟨hera, hjoiner⟩, left, ⟨hleft, hhead⟩, right, ⟨hright, htail⟩, rfl⟩

end Restricts

end Expansion

namespace Lexicon

/-- The lexicon without its order of rules: no era is checked. -/
def unordered (lex : Lexicon) : Lexicon :=
  { lex with order := none }

variable {lex : Lexicon} {scope : Scope} {form : Form} {w : Word} {e : Option Era}
  {visiting : List String}

theorem checkEra_withOrder :
    (lex.withOrder order).checkEra e = .ok () ↔ ∀ era ∈ e, order.contains era = true := by
  cases e with
  | none => simp [checkEra]
  | some era =>
    by_cases h : order.contains era = true <;> simp [checkEra, withOrder, h]

theorem checkEra_unordered : lex.unordered.checkEra e = .ok () := by
  cases e <;> rfl

section

variable {resolve resolve' : List String → Scope → Word → Except Error Form}

theorem lexemeForm_withOrder_iff
    (h : ∀ visiting scope w form, resolve visiting scope w = .ok form ↔
      resolve' visiting scope w = .ok form ∧ form.Declared order) {l : Lexeme} :
    (lex.withOrder order).lexemeForm resolve visiting scope l = .ok form ↔
      lex.unordered.lexemeForm resolve' visiting scope l = .ok form ∧ form.Declared order := by
  have hfind : (lex.withOrder order).findEntry l.name (l.scope.getD scope) =
      lex.unordered.findEntry l.name (l.scope.getD scope) := rfl
  simp only [lexemeForm, bind_eq_ok_iff, enter_eq_ok_iff, hfind, h]
  constructor
  · rintro ⟨found, hfound, hkey, hform, hdeclared⟩
    exact ⟨⟨found, hfound, hkey, hform⟩, hdeclared⟩
  · rintro ⟨⟨found, hfound, hkey, hform⟩, hdeclared⟩
    exact ⟨found, hfound, hkey, hform, hdeclared⟩

theorem joinSources_iff {own own' : Lexeme → Except Error Form}
    (h : ∀ l form, own l = .ok form ↔ own' l = .ok form ∧ form.Declared order) {a : Affix}
    {sources : List Lexeme} :
    joinSources own a sources = .ok form ↔
      joinSources own' a sources = .ok form ∧ form.Declared order := by
  have hjoin : ∀ joined l next,
      (do return Form.join joined ⟨.head, none⟩ (← own l)) = Except.ok (ε := Error) next ∧
          joined.Declared order ↔
        (do return Form.join joined ⟨.head, none⟩ (← own' l)) = Except.ok (ε := Error) next ∧
          next.Declared order := by
    intro joined l next
    simp only [bind_eq_ok_iff, h]
    constructor
    · rintro ⟨⟨last, ⟨hlast, hdeclared⟩, ⟨⟩⟩, hjoined⟩
      exact ⟨⟨last, hlast, rfl⟩, Form.declared_join.2 ⟨hjoined, nofun, hdeclared⟩⟩
    · rintro ⟨⟨last, hlast, ⟨⟩⟩, hnext⟩
      obtain ⟨hjoined, -, hdeclared⟩ := Form.declared_join.1 hnext
      exact ⟨⟨last, ⟨hlast, hdeclared⟩, rfl⟩, hjoined⟩
  cases sources with
  | nil => simp [joinSources]
  | cons first rest =>
    simp only [joinSources, bind_eq_ok_iff, h]
    constructor
    · rintro ⟨joined, ⟨hfirst, hdeclared⟩, hrest⟩
      obtain ⟨hrest', hform⟩ := (foldlM_and_iff hjoin).1 ⟨hrest, hdeclared⟩
      exact ⟨⟨joined, hfirst, hrest'⟩, hform⟩
    · rintro ⟨⟨joined, hfirst, hrest⟩, hform⟩
      obtain ⟨hrest', hdeclared⟩ := (foldlM_and_iff hjoin).2 ⟨hrest, hform⟩
      exact ⟨joined, ⟨hfirst, hdeclared⟩, hrest'⟩

theorem ownForm_withOrder_iff
    (h : ∀ visiting scope w form, resolve visiting scope w = .ok form ↔
      resolve' visiting scope w = .ok form ∧ form.Declared order) {a : Affix}
    {definition : AffixDefinition} :
    (lex.withOrder order).ownForm resolve visiting scope a definition = .ok form ↔
      lex.unordered.ownForm resolve' visiting scope a definition = .ok form ∧ form.Declared order := by
  unfold ownForm
  cases definition.form with
  | none => exact joinSources_iff fun l form => lexemeForm_withOrder_iff h
  | some affixForm =>
    cases affixForm with
    | word w => exact h _ _ _ _
    | pattern f =>
      rcases definition.sources with - | ⟨source, - | ⟨_, _⟩⟩
      · simp
      · exact h _ _ _ _
      · simp

theorem affixForm_withOrder_iff
    (h : ∀ visiting scope w form, resolve visiting scope w = .ok form ↔
      resolve' visiting scope w = .ok form ∧ form.Declared order) {a : Affix}
    {definition : AffixDefinition} :
    (lex.withOrder order).affixForm resolve visiting scope a = .ok (definition, form) ↔
      lex.unordered.affixForm resolve' visiting scope a = .ok (definition, form) ∧
        (∀ era ∈ definition.era, order.contains era = true) ∧ form.Declared order := by
  have hfind : (lex.withOrder order).findAffix a scope = lex.unordered.findAffix a scope := rfl
  simp only [affixForm, bind_eq_ok_iff, enter_eq_ok_iff, hfind, ownForm_withOrder_iff h]
  constructor
  · rintro ⟨found, hfound, _, hera, own, ⟨hkey, hform, hdeclared⟩, ⟨⟩⟩
    exact ⟨⟨found, hfound, (), checkEra_unordered, form, ⟨hkey, hform⟩, rfl⟩,
      checkEra_withOrder.1 hera, hdeclared⟩
  · rintro ⟨⟨found, hfound, _, -, own, ⟨hkey, hform⟩, ⟨⟩⟩, hera, hdeclared⟩
    exact ⟨found, hfound, (), checkEra_withOrder.2 hera, form, ⟨hkey, hform, hdeclared⟩, rfl⟩

end

theorem resolveWithin_withOrder_iff (depth : Nat) (visiting : List String) (scope : Scope) (w : Word)
    (form : Form) : (lex.withOrder order).resolveWithin depth visiting scope w = .ok form ↔
      lex.unordered.resolveWithin depth visiting scope w = .ok form ∧ form.Declared order := by
  induction depth generalizing visiting scope w form with
  | zero => simp [resolveWithin]
  | succ depth ih =>
    rw [resolveWithin, resolveWithin]
    refine Expansion.Restricts.expand_iff ⟨fun e => ?_, fun l form => ?_, fun a definition form => ?_⟩
    · simp only [checkEra_withOrder, checkEra_unordered, true_and]
    · exact lexemeForm_withOrder_iff ih
    · exact affixForm_withOrder_iff ih

theorem resolve_withOrder_iff : (lex.withOrder order).resolve w scope = .ok form ↔
    lex.unordered.resolve w scope = .ok form ∧ form.Declared order :=
  resolveWithin_withOrder_iff _ _ _ _ _

theorem inflections_withOrder_iff {entry : Entry} {found : List (Frame × Form)} :
    (lex.withOrder order).inflections entry scope = .ok found ↔
      lex.unordered.inflections entry scope = .ok found ∧ ∀ pair ∈ found, pair.2.Declared order := by
  have hpattern : ∀ (f : Frame) (w : Word) (pair : Frame × Form),
      (do return (f, ← (lex.withOrder order).substitute f w scope)) = Except.ok (ε := Error) pair ↔
        (do return (f, ← lex.unordered.substitute f w scope)) = Except.ok (ε := Error) pair ∧
          pair.2.Declared order := by
    intro f w pair
    simp only [bind_eq_ok_iff, substitute, resolve_withOrder_iff]
    constructor
    · rintro ⟨form, ⟨hform, hdeclared⟩, ⟨⟩⟩
      exact ⟨⟨form, hform, rfl⟩, hdeclared⟩
    · rintro ⟨⟨form, hform, ⟨⟩⟩, hdeclared⟩
      exact ⟨form, ⟨hform, hdeclared⟩, rfl⟩
  have hpatterns : (lex.withOrder order).patterns entry.template =
      lex.unordered.patterns entry.template := rfl
  simp only [inflections, bind_eq_ok_iff, mapM_eq_ok_iff, hpatterns, hpattern, forall₂_and_iff]
  constructor
  · rintro ⟨frames, hframes, hfound, hdeclared⟩
    exact ⟨⟨frames, hframes, hfound⟩, hdeclared⟩
  · rintro ⟨⟨frames, hframes, hfound⟩, hdeclared⟩
    exact ⟨frames, hframes, hfound, hdeclared⟩

/-- With an order of rules attached, a word, a pattern around a word and an entry's template give the
forms that they give without one, as far as every era in these is declared. -/
theorem eras_declared (lex : Lexicon) (order : RuleOrder) (scope : Scope) :
    (∀ (w : Word) (form : Form), (lex.withOrder order).resolve w scope = .ok form ↔
      lex.unordered.resolve w scope = .ok form ∧ form.Declared order) ∧
    (∀ (f : Frame) (w : Word) (form : Form), (lex.withOrder order).substitute f w scope = .ok form ↔
      lex.unordered.substitute f w scope = .ok form ∧ form.Declared order) ∧
    ∀ (entry : Entry) (found : List (Frame × Form)),
      (lex.withOrder order).inflections entry scope = .ok found ↔
        lex.unordered.inflections entry scope = .ok found ∧
          ∀ pair ∈ found, pair.2.Declared order :=
  ⟨fun _ _ => resolve_withOrder_iff, fun _ _ _ => resolve_withOrder_iff,
    fun _ _ => inflections_withOrder_iff⟩

end Lexicon

end Etymon
