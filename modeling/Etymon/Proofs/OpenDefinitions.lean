import Etymon.Lexicon.Resolution
import Etymon.Proofs.Action

/-!
# Forms do not depend on what is open

Open definitions can only keep a word from being resolved. A form that is found while some are open, on
the way to a definition inside others, is the form that is found from the outset.

## Main definitions

* `Expansion.Below`: an expansion gives everything that another one gives.

## Main results

* `Expansion.Below.expand`: so do the words that are expanded.
* `Lexicon.resolve_of_resolveWithin`: a form that is found inside definitions is found by itself.
-/

namespace Etymon

/-! ## Expansions that give more -/

namespace Expansion

/-- The second expansion gives everything that the first one gives. -/
structure Below (x x' : Expansion) : Prop where
  era : ∀ e, x.checkEra e = .ok () → x'.checkEra e = .ok ()
  lexeme : ∀ l form, x.lexeme l = .ok form → x'.lexeme l = .ok form
  affix : ∀ a pair, x.affix a = .ok pair → x'.affix a = .ok pair

namespace Below

variable {x x' : Expansion} {stem form : Form}

theorem frame (h : x.Below x') {f : Frame} (hform : x.frame f stem = .ok form) :
    x'.frame f stem = .ok form := by
  have hsuffix : ∀ stem name form, x.addSuffix stem name = .ok form →
      x'.addSuffix stem name = .ok form := by
    intro stem name form hname
    obtain ⟨pair, hpair, hrest⟩ := bind_eq_ok_iff.1 hname
    exact bind_eq_ok_iff.2 ⟨pair, h.affix _ _ hpair, hrest⟩
  have hprefix : ∀ stem name form, x.addPrefix stem name = .ok form →
      x'.addPrefix stem name = .ok form := by
    intro stem name form hname
    obtain ⟨pair, hpair, hrest⟩ := bind_eq_ok_iff.1 hname
    exact bind_eq_ok_iff.2 ⟨pair, h.affix _ _ hpair, hrest⟩
  obtain ⟨inner, hsuffixes, hprefixes⟩ := bind_eq_ok_iff.1 hform
  exact bind_eq_ok_iff.2 ⟨inner, foldlM_of_steps hsuffix hsuffixes, foldlM_of_steps hprefix hprefixes⟩

theorem expand (h : x.Below x') {w : Word} (hform : w.expand x = .ok form) :
    w.expand x' = .ok form := by
  induction w generalizing form with
  | morpheme f m =>
    obtain ⟨_, hera, hform⟩ := bind_eq_ok_iff.1 hform
    exact bind_eq_ok_iff.2 ⟨(), h.era _ hera, h.frame hform⟩
  | lexeme f l =>
    obtain ⟨stem, hstem, hform⟩ := bind_eq_ok_iff.1 hform
    exact bind_eq_ok_iff.2 ⟨stem, h.lexeme _ _ hstem, h.frame hform⟩
  | bracket f w ih =>
    obtain ⟨stem, hstem, hform⟩ := bind_eq_ok_iff.1 hform
    exact bind_eq_ok_iff.2 ⟨stem, ih hstem, h.frame hform⟩
  | join head j tail ihHead ihTail =>
    obtain ⟨_, hera, hform⟩ := bind_eq_ok_iff.1 hform
    obtain ⟨left, hleft, hform⟩ := bind_eq_ok_iff.1 hform
    obtain ⟨right, hright, ⟨⟩⟩ := bind_eq_ok_iff.1 hform
    exact bind_eq_ok_iff.2 ⟨(), h.era _ hera, bind_eq_ok_iff.2 ⟨left, ihHead hleft,
      bind_eq_ok_iff.2 ⟨right, ihTail hright, rfl⟩⟩⟩

end Below

end Expansion

/-! ## Fewer open definitions -/

namespace Lexicon

variable {lex : Lexicon} {scope : Scope} {w : Word} {form : Form} {depth depth' : Nat}
  {visiting visiting' : List String}

section

variable {resolve resolve' : List String → Scope → Word → Except Error Form}

theorem lexemeForm_of_subset (hvisiting : visiting' ⊆ visiting)
    (h : ∀ visiting visiting' scope w form, visiting' ⊆ visiting →
      resolve visiting scope w = .ok form → resolve' visiting' scope w = .ok form) {l : Lexeme}
    (hform : lex.lexemeForm resolve visiting scope l = .ok form) :
    lex.lexemeForm resolve' visiting' scope l = .ok form := by
  obtain ⟨⟨owner, entry⟩, found, hform⟩ := bind_eq_ok_iff.1 hform
  obtain ⟨hkey, hinside⟩ := enter_eq_ok_iff.1 hform
  exact bind_eq_ok_iff.2 ⟨(owner, entry), found, enter_eq_ok_iff.2
    ⟨fun hmem => hkey (hvisiting hmem), h _ _ _ _ _ (List.cons_subset_cons _ hvisiting) hinside⟩⟩

theorem joinSources_of_lexemes {own own' : Lexeme → Except Error Form}
    (h : ∀ l form, own l = .ok form → own' l = .ok form) {a : Affix} {sources : List Lexeme}
    (hform : joinSources own a sources = .ok form) : joinSources own' a sources = .ok form := by
  cases sources with
  | nil => cases hform
  | cons first rest =>
    obtain ⟨joined, hfirst, hrest⟩ := bind_eq_ok_iff.1 hform
    refine bind_eq_ok_iff.2 ⟨joined, h _ _ hfirst, foldlM_of_steps (fun joined l next hnext => ?_) hrest⟩
    obtain ⟨last, hlast, ⟨⟩⟩ := bind_eq_ok_iff.1 hnext
    exact bind_eq_ok_iff.2 ⟨last, h _ _ hlast, rfl⟩

theorem ownForm_of_subset (hvisiting : visiting' ⊆ visiting)
    (h : ∀ visiting visiting' scope w form, visiting' ⊆ visiting →
      resolve visiting scope w = .ok form → resolve' visiting' scope w = .ok form) {a : Affix}
    {definition : AffixDefinition}
    (hform : lex.ownForm resolve visiting scope a definition = .ok form) :
    lex.ownForm resolve' visiting' scope a definition = .ok form := by
  unfold ownForm at hform ⊢
  cases hd : definition.form with
  | none =>
    rw [hd] at hform
    exact joinSources_of_lexemes (fun _ _ => lexemeForm_of_subset hvisiting h) hform
  | some affixForm =>
    rw [hd] at hform
    cases affixForm with
    | word w => exact h _ _ _ _ _ hvisiting hform
    | pattern f =>
      cases hsources : definition.sources with
      | nil => simp [hsources] at hform
      | cons source rest =>
        rw [hsources] at hform
        cases rest with
        | nil => exact h _ _ _ _ _ hvisiting hform
        | cons _ _ => cases hform

end

/-- A form that is found while definitions are open is found as well while fewer are, or at a greater
depth. -/
theorem resolveWithin_of_subset (hdepth : depth ≤ depth') (hvisiting : visiting' ⊆ visiting)
    (h : lex.resolveWithin depth visiting scope w = .ok form) :
    lex.resolveWithin depth' visiting' scope w = .ok form := by
  induction depth generalizing depth' visiting visiting' scope w form with
  | zero => cases h
  | succ depth ih =>
    obtain ⟨depth', rfl⟩ := Nat.exists_eq_add_one.2 (Nat.lt_of_lt_of_le depth.succ_pos hdepth)
    have hinside : ∀ visiting visiting' scope w form, visiting' ⊆ visiting →
        lex.resolveWithin depth visiting scope w = .ok form →
          lex.resolveWithin depth' visiting' scope w = .ok form :=
      fun _ _ _ _ _ hsubset h => ih (Nat.le_of_succ_le_succ hdepth) hsubset h
    rw [resolveWithin] at h ⊢
    refine Expansion.Below.expand ?_ h
    refine ⟨fun e he => he, fun l form hl => ?_, fun a pair ha => ?_⟩
    · exact lexemeForm_of_subset hvisiting hinside hl
    · obtain ⟨⟨owner, definition⟩, found, ha⟩ := bind_eq_ok_iff.1 ha
      obtain ⟨_, era, ha⟩ := bind_eq_ok_iff.1 ha
      obtain ⟨own, hown, hpair⟩ := bind_eq_ok_iff.1 ha
      obtain ⟨hkey, hform⟩ := enter_eq_ok_iff.1 hown
      have hform' := ownForm_of_subset (List.cons_subset_cons _ hvisiting) hinside hform
      exact bind_eq_ok_iff.2 ⟨(owner, definition), found, bind_eq_ok_iff.2 ⟨(), era,
        bind_eq_ok_iff.2 ⟨own, enter_eq_ok_iff.2 ⟨fun hmem => hkey (hvisiting hmem), hform'⟩, hpair⟩⟩⟩

theorem resolve_of_resolveWithin (hdepth : depth ≤ lex.entries.length + lex.affixes.length + 1)
    (h : lex.resolveWithin depth visiting scope w = .ok form) : lex.resolve w scope = .ok form :=
  resolveWithin_of_subset hdepth (List.nil_subset _) h

end Lexicon

end Etymon
