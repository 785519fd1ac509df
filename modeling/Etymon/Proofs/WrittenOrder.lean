import Etymon.Proofs.Form
import Etymon.Proofs.Lossless
import Etymon.Proofs.OpenDefinitions
import Etymon.Proofs.Resolution

/-!
# Resolved forms keep the written order

A word is written as a sequence of morphemes, lexemes, joiners and affixes. Its form is read as the
sequence of what these stand for: a lexeme for the form of its entry, and an affix for its own form
with a joiner on the side of the stem. Affixes are put around their stem one by one, so the form of a
stem with affixes shows in which order this was done.

## Main definitions

* `Word.items`: the parts of a word in written order.
* `Attachment`: an affix with its form and its joiner.
* `Lexicon.ReadsAs`: a part of a word and its own reading.
* `Lexicon.Fused`: a stem with its suffixes, and its prefixes around these.

## Main results

* `Word.ink_items`: the items of a word stand as they are written.
* `Lexicon.resolve_in_order`: the reading of a resolved form, and the shape of each fusion in it.
-/

namespace Etymon

open Reading

/-! ## The parts of a word -/

/-- A part of a word that is not written out of smaller ones. -/
inductive Item where
  | morpheme (m : Morpheme)
  | joiner (j : Joiner)
  | lexeme (l : Lexeme)
  | affix (a : Affix)
  deriving DecidableEq, Repr

def Item.render : Item → String
  | morpheme m => m.render
  | joiner j => j.render
  | lexeme l => l.render
  | affix a => a.render

/-- The outermost prefix first, then the stem, then the suffixes from the inside out. -/
def Frame.items (f : Frame) (stem : List Item) : List Item :=
  (f.prefixes.reverse.map fun name => .affix (.pre name)) ++
    (stem ++ f.suffixes.map fun name => .affix (.suf name))

/-- The parts of a word in written order, with the brackets opened. -/
def Word.items : Word → List Item
  | morpheme f m => f.items [.morpheme m]
  | lexeme f l => f.items [.lexeme l]
  | bracket f w => f.items w.items
  | join h j t => h.items ++ .joiner j :: t.items

/-- The affixes of each stem in a word, with the stem as a word of its own. -/
def Word.fusions : Word → List (Frame × Word)
  | morpheme f m => [(f, .morpheme .empty m)]
  | lexeme f l => [(f, .ofLexeme l)]
  | bracket f w => (f, w) :: w.fusions
  | join h _ t => h.fusions ++ t.fusions

theorem Frame.renderPrefixes_eq (names : List String) :
    (renderPrefixes names).toList =
      (names.reverse.map fun name => Item.affix (.pre name)).flatMap fun i => i.render.toList := by
  induction names with
  | nil => rfl
  | cons name outer ih => simp [renderPrefixes, ih, Item.render]

theorem Frame.renderSuffixes_eq (names : List String) :
    (renderSuffixes names).toList =
      (names.map fun name => Item.affix (.suf name)).flatMap fun i => i.render.toList := by
  induction names with
  | nil => rfl
  | cons name outer ih => simp [renderSuffixes, ih, Item.render]

theorem Frame.ink_items (f : Frame) {stem : String} {items : List Item}
    (h : ink stem.toList = ink (items.flatMap fun i => i.render.toList)) :
    ink (f.around stem).toList = ink ((f.items items).flatMap fun i => i.render.toList) := by
  rw [ink_around, renderPrefixes_eq, renderSuffixes_eq, h, Frame.items, List.flatMap_append,
    List.flatMap_append, ink_append, ink_append]

/-- The items of a word stand as they are written. -/
theorem Word.ink_items (w : Word) :
    ink w.render.toList = ink (w.items.flatMap fun i => i.render.toList) := by
  induction w with
  | morpheme f m => exact f.ink_items (by simp [Item.render])
  | lexeme f l => exact f.ink_items (by simp [Item.render])
  | bracket f w ih => exact f.ink_items (by rw [ink_quoteIf, ih])
  | join h j t ihHead ihTail =>
    rw [ink_render_join, ihHead, ihTail, items, List.flatMap_append, List.flatMap_cons, ink_append,
      ink_append, Item.render]

/-! ## Affixes beside a form -/

def Stress.opposite : Stress → Stress
  | head => tail
  | tail => head

/-- The side of a join on which an affix stands. -/
def Affix.side : Affix → Stress
  | pre _ => .head
  | suf _ => .tail

/-- The joiner between an affix and what it is attached to: of the era of its definition, and stressed
on the side of the affix if the definition is marked as stressed, on the other side if it is not. -/
def AffixDefinition.joiner (d : AffixDefinition) (a : Affix) : Joiner :=
  ⟨if d.stressed then a.side else a.side.opposite, d.era⟩

/-- An affix with its form and the joiner that attaches it. -/
structure Attachment where
  affix : Affix
  joiner : Joiner
  form : Form

namespace Attachment

/-- The joiner stands between the affix and the stem. -/
def reading (x : Attachment) : List Sign :=
  match x.affix with
  | .pre _ => x.form.reading ++ [.joiner x.joiner]
  | .suf _ => .joiner x.joiner :: x.form.reading

/-- The affix attached to a form. -/
def around (x : Attachment) (stem : Form) : Form :=
  match x.affix with
  | .pre _ => .join x.form x.joiner stem
  | .suf _ => .join stem x.joiner x.form

/-- Attaches affixes to a form, one after another. -/
def attach (stem : Form) (xs : List Attachment) : Form :=
  xs.foldl (fun form x => x.around form) stem

theorem reading_attach_suffixes {xs : List Attachment} (h : ∀ x ∈ xs, ∃ name, x.affix = .suf name)
    (stem : Form) : (attach stem xs).reading = stem.reading ++ (xs.map reading).flatten := by
  induction xs generalizing stem with
  | nil => simp [attach]
  | cons x xs ih =>
    obtain ⟨⟨name, hx⟩, hxs⟩ := List.forall_mem_cons.1 h
    rw [attach, List.foldl_cons, ← attach, ih hxs]
    simp [around, reading, hx]

theorem reading_attach_prefixes {xs : List Attachment} (h : ∀ x ∈ xs, ∃ name, x.affix = .pre name)
    (stem : Form) :
    (attach stem xs).reading = (xs.reverse.map reading).flatten ++ stem.reading := by
  induction xs generalizing stem with
  | nil => simp [attach]
  | cons x xs ih =>
    obtain ⟨⟨name, hx⟩, hxs⟩ := List.forall_mem_cons.1 h
    rw [attach, List.foldl_cons, ← attach, ih hxs]
    simp [around, reading, hx]

end Attachment

/-- A form and all forms that it is joined from, at any depth. -/
def Form.subforms : Form → List Form
  | leaf m => [leaf m]
  | join h j t => join h j t :: (h.subforms ++ t.subforms)

theorem Form.mem_subforms_self (form : Form) : form ∈ form.subforms := by
  cases form <;> simp [subforms]

theorem Attachment.subforms_subset_attach (stem : Form) (xs : List Attachment) :
    stem.subforms ⊆ (attach stem xs).subforms := by
  induction xs generalizing stem with
  | nil => exact List.Subset.refl _
  | cons x xs ih =>
    refine List.Subset.trans ?_ (ih (x.around stem))
    intro form hform
    unfold around
    split <;> simp [Form.subforms, hform]

namespace Lexicon

variable {lex : Lexicon} {scope : Scope} {w : Word} {form stem : Form}

/-- What an affix is in a scope: the form of its own word, resolved in the scope where the affix is
defined, and the joiner of its definition. -/
structure Attaches (lex : Lexicon) (scope : Scope) (a : Affix) (x : Attachment) : Prop where
  affix : x.affix = a
  own : ∃ owner definition w, lex.findAffix a scope = .ok (owner, definition) ∧
    definition.word a = .ok w ∧ lex.resolve w owner = .ok x.form ∧ x.joiner = definition.joiner a

/-- A part of a word and its own reading. A lexeme is read as the form of its entry, resolved in the
scope where the entry is defined. -/
inductive ReadsAs (lex : Lexicon) (scope : Scope) : Item → List Sign → Prop
  | morpheme (m : Morpheme) : lex.ReadsAs scope (.morpheme m) [.morpheme m]
  | joiner (j : Joiner) : lex.ReadsAs scope (.joiner j) [.joiner j]
  | lexeme {l : Lexeme} {owner : Scope} {entry : Entry} {form : Form}
      (found : lex.findEntry l.name (l.scope.getD scope) = .ok (owner, entry))
      (own : lex.resolve entry.form owner = .ok form) : lex.ReadsAs scope (.lexeme l) form.reading
  | affix {a : Affix} {x : Attachment} (own : lex.Attaches scope a x) :
      lex.ReadsAs scope (.affix a) x.reading

/-- A stem with the affixes of a frame around it: first all suffixes are attached, then all prefixes,
the inner ones before the outer ones. -/
def Fused (lex : Lexicon) (scope : Scope) (f : Frame) (w : Word) (form : Form) : Prop :=
  ∃ stem suffixes prefixes, lex.resolve w scope = .ok stem ∧
    List.Forall₂ (fun name x => lex.Attaches scope (.suf name) x) f.suffixes suffixes ∧
    List.Forall₂ (fun name x => lex.Attaches scope (.pre name) x) f.prefixes prefixes ∧
    form = Attachment.attach (Attachment.attach stem suffixes) prefixes

/-- What lexemes and affixes stand for in a scope while no definition is open. -/
def outset (lex : Lexicon) (scope : Scope) : Expansion :=
  lex.expansion (lex.resolveWithin (lex.entries.length + lex.affixes.length)) [] scope

theorem resolve_eq_expand (w : Word) (scope : Scope) :
    lex.resolve w scope = w.expand (lex.outset scope) := rfl

/-! ## Affixes are attached in order -/

theorem readsAs_of_lexeme {l : Lexeme} (h : (lex.outset scope).lexeme l = .ok form) :
    lex.ReadsAs scope (.lexeme l) form.reading := by
  obtain ⟨⟨owner, entry⟩, found, hform⟩ := bind_eq_ok_iff.1 h
  exact .lexeme found (resolve_of_resolveWithin (Nat.le_succ _) (enter_eq_ok_iff.1 hform).2)

theorem attaches_of_affix {a : Affix} {definition : AffixDefinition}
    (h : (lex.outset scope).affix a = .ok (definition, form)) :
    lex.Attaches scope a ⟨a, definition.joiner a, form⟩ := by
  obtain ⟨⟨owner, definition⟩, found, h⟩ := bind_eq_ok_iff.1 h
  obtain ⟨_, -, h⟩ := bind_eq_ok_iff.1 h
  obtain ⟨form, hform, ⟨⟩⟩ := bind_eq_ok_iff.1 h
  obtain ⟨-, hinside⟩ := enter_eq_ok_iff.1 hform
  rw [resolveWithin_eq_resolveFrom] at hinside
  obtain ⟨depth, -, hdepth, hown⟩ := exists_ownForm_eq lex _ (lex.entries.length + lex.affixes.length) a
    definition
  rw [hown] at hinside
  obtain ⟨w, hword, hinside⟩ := bind_eq_ok_iff.1 hinside
  rw [← resolveWithin_eq_resolveFrom] at hinside
  exact ⟨rfl, owner, definition, w, found, hword, resolve_of_resolveWithin hdepth hinside, rfl⟩

theorem exists_around_of_addSuffix {name : String}
    (h : (lex.outset scope).addSuffix stem name = .ok form) :
    ∃ x, lex.Attaches scope (.suf name) x ∧ form = x.around stem := by
  obtain ⟨⟨definition, own⟩, hown, ⟨⟩⟩ := bind_eq_ok_iff.1 h
  exact ⟨_, attaches_of_affix hown, rfl⟩

theorem exists_around_of_addPrefix {name : String}
    (h : (lex.outset scope).addPrefix stem name = .ok form) :
    ∃ x, lex.Attaches scope (.pre name) x ∧ form = x.around stem := by
  obtain ⟨⟨definition, own⟩, hown, ⟨⟩⟩ := bind_eq_ok_iff.1 h
  exact ⟨_, attaches_of_affix hown, rfl⟩

theorem exists_attach_of_foldlM {side : String → Affix} {add : Form → String → Except Error Form}
    {names : List String} (h : names.foldlM add stem = .ok form)
    (hadd : ∀ {stem name form}, add stem name = .ok form →
      ∃ x, lex.Attaches scope (side name) x ∧ form = x.around stem) :
    ∃ xs, List.Forall₂ (fun name x => lex.Attaches scope (side name) x) names xs ∧
      form = Attachment.attach stem xs := by
  induction names generalizing stem with
  | nil =>
    cases h
    exact ⟨[], .nil, rfl⟩
  | cons name names ih =>
    rw [List.foldlM_cons] at h
    obtain ⟨_, hname, hrest⟩ := bind_eq_ok_iff.1 h
    obtain ⟨x, hx, rfl⟩ := hadd hname
    obtain ⟨xs, hxs, rfl⟩ := ih hrest
    exact ⟨x :: xs, .cons hx hxs, rfl⟩

/-- All suffixes are attached before the first prefix is. -/
theorem exists_attach_of_frame {f : Frame} (h : (lex.outset scope).frame f stem = .ok form) :
    ∃ suffixes prefixes,
      List.Forall₂ (fun name x => lex.Attaches scope (.suf name) x) f.suffixes suffixes ∧
      List.Forall₂ (fun name x => lex.Attaches scope (.pre name) x) f.prefixes prefixes ∧
      form = Attachment.attach (Attachment.attach stem suffixes) prefixes := by
  obtain ⟨inner, hsuffixes, hprefixes⟩ := bind_eq_ok_iff.1 h
  obtain ⟨suffixes, hs, rfl⟩ := exists_attach_of_foldlM hsuffixes exists_around_of_addSuffix
  obtain ⟨prefixes, hp, rfl⟩ := exists_attach_of_foldlM hprefixes exists_around_of_addPrefix
  exact ⟨suffixes, prefixes, hs, hp, rfl⟩

theorem fused_of_frame {f : Frame} (hstem : lex.resolve w scope = .ok stem)
    (h : (lex.outset scope).frame f stem = .ok form) : lex.Fused scope f w form := by
  obtain ⟨suffixes, prefixes, hsuffixes, hprefixes, rfl⟩ := exists_attach_of_frame h
  exact ⟨stem, suffixes, prefixes, hstem, hsuffixes, hprefixes, rfl⟩

/-! ## What is read -/

/-- The parts of a word have readings that make up the reading of a form. -/
def Spells (lex : Lexicon) (scope : Scope) (items : List Item) (form : Form) : Prop :=
  ∃ readings, List.Forall₂ (lex.ReadsAs scope) items readings ∧ form.reading = readings.flatten

theorem Spells.of_readsAs {item : Item} (h : lex.ReadsAs scope item form.reading) :
    lex.Spells scope [item] form :=
  ⟨[form.reading], .cons h .nil, by simp⟩

theorem Spells.join {head tail : List Item} {h t : Form} (hhead : lex.Spells scope head h)
    (j : Joiner) (htail : lex.Spells scope tail t) :
    lex.Spells scope (head ++ .joiner j :: tail) (.join h j t) := by
  obtain ⟨before, hbefore, hh⟩ := hhead
  obtain ⟨after, hafter, ht⟩ := htail
  exact ⟨before ++ [.joiner j] :: after, List.rel_append hbefore (.cons (.joiner j) hafter),
    by simp [hh, ht]⟩

theorem exists_affix_of_attaches {side : String → Affix} {names : List String} {xs : List Attachment}
    (h : List.Forall₂ (fun name x => lex.Attaches scope (side name) x) names xs) :
    ∀ x ∈ xs, ∃ name, x.affix = side name := by
  intro x hx
  obtain ⟨name, -, hname⟩ := exists_of_mem_forall₂ h hx
  exact ⟨name, hname.affix⟩

theorem readsAs_of_attaches {side : String → Affix} {names : List String} {xs : List Attachment}
    (h : List.Forall₂ (fun name x => lex.Attaches scope (side name) x) names xs) :
    List.Forall₂ (lex.ReadsAs scope) (names.map fun name => .affix (side name))
      (xs.map Attachment.reading) := by
  simp only [List.forall₂_map_left_iff, List.forall₂_map_right_iff]
  exact h.imp fun _ _ hname => .affix hname

/-- Affixes are read on both sides of their stem, in written order. -/
theorem Spells.frame {f : Frame} {items : List Item} (hstem : lex.Spells scope items stem)
    (h : (lex.outset scope).frame f stem = .ok form) : lex.Spells scope (f.items items) form := by
  obtain ⟨readings, hreadings, hread⟩ := hstem
  obtain ⟨suffixes, prefixes, hsuffixes, hprefixes, rfl⟩ := exists_attach_of_frame h
  -- Prefixes are attached from the inside out and written from the outside in.
  have hwritten := readsAs_of_attaches (List.forall₂_reverse_iff.2 hprefixes)
  refine ⟨prefixes.reverse.map Attachment.reading ++
    (readings ++ suffixes.map Attachment.reading),
    List.rel_append hwritten (List.rel_append hreadings (readsAs_of_attaches hsuffixes)), ?_⟩
  rw [Attachment.reading_attach_prefixes (exists_affix_of_attaches hprefixes),
    Attachment.reading_attach_suffixes (exists_affix_of_attaches hsuffixes), hread,
    List.flatten_append, List.flatten_append]

/-- The form of a word is read as the word is written. -/
theorem spells_of_resolve (h : lex.resolve w scope = .ok form) : lex.Spells scope w.items form := by
  rw [resolve_eq_expand] at h
  induction w generalizing form with
  | morpheme f m =>
    obtain ⟨_, -, around⟩ := bind_eq_ok_iff.1 h
    exact .frame (.of_readsAs (.morpheme m)) around
  | lexeme f l =>
    obtain ⟨stem, hstem, around⟩ := bind_eq_ok_iff.1 h
    exact .frame (.of_readsAs (readsAs_of_lexeme hstem)) around
  | bracket f w ih =>
    obtain ⟨stem, hstem, around⟩ := bind_eq_ok_iff.1 h
    exact .frame (ih hstem) around
  | join head j tail ihHead ihTail =>
    obtain ⟨_, -, h⟩ := bind_eq_ok_iff.1 h
    obtain ⟨left, hleft, h⟩ := bind_eq_ok_iff.1 h
    obtain ⟨right, hright, ⟨⟩⟩ := bind_eq_ok_iff.1 h
    exact .join (ihHead hleft) j (ihTail hright)

/-- Each fusion of a word has its form inside the form of the word. -/
theorem exists_fused_of_resolve (h : lex.resolve w scope = .ok form) :
    ∀ fusion ∈ w.fusions, ∃ built ∈ form.subforms, lex.Fused scope fusion.1 fusion.2 built := by
  rw [resolve_eq_expand] at h
  induction w generalizing form with
  | morpheme f m =>
    obtain ⟨_, hera, around⟩ := bind_eq_ok_iff.1 h
    have hstem : lex.resolve (.morpheme .empty m) scope = .ok (.leaf m) :=
      bind_eq_ok_iff.2 ⟨(), hera, rfl⟩
    exact List.forall_mem_singleton.2 ⟨form, form.mem_subforms_self, fused_of_frame hstem around⟩
  | lexeme f l =>
    obtain ⟨stem, hown, around⟩ := bind_eq_ok_iff.1 h
    have hstem : lex.resolve (.ofLexeme l) scope = .ok stem := bind_eq_ok_iff.2 ⟨stem, hown, rfl⟩
    exact List.forall_mem_singleton.2 ⟨form, form.mem_subforms_self, fused_of_frame hstem around⟩
  | bracket f w ih =>
    obtain ⟨stem, hstem, around⟩ := bind_eq_ok_iff.1 h
    refine List.forall_mem_cons.2
      ⟨⟨form, form.mem_subforms_self, fused_of_frame hstem around⟩, fun fusion hfusion => ?_⟩
    obtain ⟨built, hbuilt, hfused⟩ := ih hstem fusion hfusion
    obtain ⟨suffixes, prefixes, -, -, rfl⟩ := exists_attach_of_frame around
    exact ⟨built, Attachment.subforms_subset_attach _ _
      (Attachment.subforms_subset_attach _ _ hbuilt), hfused⟩
  | join head j tail ihHead ihTail =>
    obtain ⟨_, -, h⟩ := bind_eq_ok_iff.1 h
    obtain ⟨left, hleft, h⟩ := bind_eq_ok_iff.1 h
    obtain ⟨right, hright, ⟨⟩⟩ := bind_eq_ok_iff.1 h
    refine List.forall_mem_append.2 ⟨fun fusion hfusion => ?_, fun fusion hfusion => ?_⟩
    · obtain ⟨built, hbuilt, hfused⟩ := ihHead hleft fusion hfusion
      exact ⟨built, by simp [Form.subforms, hbuilt], hfused⟩
    · obtain ⟨built, hbuilt, hfused⟩ := ihTail hright fusion hfusion
      exact ⟨built, by simp [Form.subforms, hbuilt], hfused⟩

/-- The form of a word that resolves is read as its parts are written, each part as its own expansion.
Inside it stands, for each stem with affixes, a form in which all suffixes are attached before any
prefix. -/
theorem resolve_in_order (h : lex.resolve w scope = .ok form) :
    (∃ readings, List.Forall₂ (lex.ReadsAs scope) w.items readings ∧
      form.reading = readings.flatten) ∧
    ∀ fusion ∈ w.fusions, ∃ built ∈ form.subforms, lex.Fused scope fusion.1 fusion.2 built :=
  ⟨spells_of_resolve h, exists_fused_of_resolve h⟩

/-- A lexicon in which a plural is a heap of stones and a negation is stressed and of its own era. -/
def stones : Lexicon where
  entries := [
    ((.root, "stone"), ⟨none, ⟨"stone", none⟩, .empty, .morpheme .empty ⟨"ata", none⟩, "n.", ""⟩),
    ((.root, "heap"), ⟨none, ⟨"heap", none⟩, .empty, .morpheme .empty ⟨"gu", none⟩, "n.", ""⟩)]
  affixes := [
    ((.root, .pre "NEG"), ⟨true, .pre "NEG", .empty, some ⟨"era1"⟩,
      some (.word (.morpheme .empty ⟨"ne", none⟩)), [], "no"⟩),
    ((.root, .suf "PL"), ⟨false, .suf "PL", .empty, none, none,
      [⟨"heap", none⟩, ⟨"stone", none⟩], "plural"⟩)]
  templates := []
  parents := []
  order := none
  sources := []

/-- The negation is attached around the plural; both are read where they are written. -/
theorem resolve_in_order_negated_plural :
    ∃ form, stones.resolve (.lexeme ⟨["NEG"], ["PL"]⟩ ⟨"stone", none⟩) .root = .ok form ∧
      form.render = "*ne !+@era1 \"*ata !+ \"*gu !+ *ata\"\"" ∧
      (∃ readings, List.Forall₂ (stones.ReadsAs .root)
          [.affix (.pre "NEG"), .lexeme ⟨"stone", none⟩, .affix (.suf "PL")] readings ∧
        form.reading = readings.flatten) ∧
      ∃ built ∈ form.subforms,
        stones.Fused .root ⟨["NEG"], ["PL"]⟩ (.ofLexeme ⟨"stone", none⟩) built := by
  have hresolve : stones.resolve (.lexeme ⟨["NEG"], ["PL"]⟩ ⟨"stone", none⟩) .root =
      .ok (.join (.leaf ⟨"ne", none⟩) ⟨.head, some ⟨"era1"⟩⟩ (.join (.leaf ⟨"ata", none⟩) ⟨.head, none⟩
        (.join (.leaf ⟨"gu", none⟩) ⟨.head, none⟩ (.leaf ⟨"ata", none⟩)))) := by rfl
  obtain ⟨hread, hfused⟩ := resolve_in_order hresolve
  exact ⟨_, hresolve, by decide, hread, hfused _ (List.mem_singleton_self _)⟩

end Lexicon

end Etymon
