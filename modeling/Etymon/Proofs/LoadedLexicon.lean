import Etymon.Proofs.Inlining
import Etymon.Proofs.Notation

/-!
# Loaded lexicons are legible

Records are read off text, so the names in them can be written down again. A lexicon that was loaded
knows its entries by their headwords and its affixes by their names, and only scopes that have a name of
their own have parents in it.

## Main definitions

* `Record.Legible`: the names that a record declares are made of the characters of their kind.
* `Lexicon.Legible`: so are those in a lexicon, and its entries stand under their headwords.

## Main results

* `Record.legible_of_parseAll`: what is read is legible.
* `Lexicon.legible_of_load`: what is loaded is legible.
-/

namespace Etymon

open Reading

/-- The headword of an entry, the name of an affix, the patterns of a template, and the scopes of a
language can be written down again. -/
def Record.Legible : Record → Prop
  | .entry e => e.lexeme.Writable
  | .affix d => IsName isIdentChar d.affix.name
  | .template t => ∀ f ∈ t.patterns, f.Writable
  | .lang child parent _ => IsName isIdentChar child.name ∧ IsName isIdentChar parent.name
  | .includes _ => True

namespace Reading

variable {s rest : List Char}

theorem isName_of_scope {owner : Scope} (h : scope s = .ok (owner, rest)) :
    IsName isIdentChar owner.name := by
  obtain ⟨⟨_, s⟩, -, h⟩ := bind_eq_ok_iff.1 h
  obtain ⟨⟨name, s⟩, hname, ⟨⟩⟩ := bind_eq_ok_iff.1 h
  exact isName_of_run hname

theorem writable_of_lexeme {l : Lexeme} (h : lexeme s = .ok (l, rest)) : l.Writable := by
  obtain ⟨⟨_, s⟩, -, h⟩ := bind_eq_ok_iff.1 h
  exact writable_of_lexemeBody h

theorem writable_of_pattern {f : Frame} (h : pattern s = .ok (f, rest)) : f.Writable := by
  obtain ⟨⟨before, s⟩, hbefore, h⟩ := bind_eq_ok_iff.1 h
  obtain ⟨⟨_, s⟩, -, ⟨⟩⟩ := bind_eq_ok_iff.1 h
  exact ⟨isName_of_prefixesAfter (by simp) hbefore, isName_of_mem_suffixesWithin _ _⟩

theorem writable_of_patterns {fuel : Nat} {found : List Frame} (h : patterns fuel s = .ok found) :
    ∀ f ∈ found, f.Writable := by
  induction fuel generalizing s found with
  | zero => cases h; simp
  | succ fuel ih =>
    rw [patterns] at h
    split at h
    · cases h; simp
    · obtain ⟨⟨f, s⟩, hf, h⟩ := bind_eq_ok_iff.1 h
      obtain ⟨more, hmore, ⟨⟩⟩ := bind_eq_ok_iff.1 h
      exact List.forall_mem_cons.2 ⟨writable_of_pattern hf, ih hmore⟩

theorem writable_of_template {t : Template} (h : template s = .ok t) :
    ∀ f ∈ t.patterns, f.Writable := by
  obtain ⟨⟨_, s⟩, -, h⟩ := bind_eq_ok_iff.1 h
  obtain ⟨⟨name, s⟩, -, h⟩ := bind_eq_ok_iff.1 h
  obtain ⟨⟨bag, s⟩, -, h⟩ := bind_eq_ok_iff.1 h
  obtain ⟨found, hfound, h⟩ := bind_eq_ok_iff.1 h
  split at h
  · cases h
  · cases h
    exact writable_of_patterns hfound

theorem writable_of_entry {e : Entry} (h : entry s = .ok e) : e.lexeme.Writable := by
  obtain ⟨⟨name, s⟩, -, h⟩ := bind_eq_ok_iff.1 h
  obtain ⟨⟨bag, s⟩, -, h⟩ := bind_eq_ok_iff.1 h
  obtain ⟨⟨headword, s⟩, hheadword, h⟩ := bind_eq_ok_iff.1 h
  obtain ⟨⟨form, s⟩, -, h⟩ := bind_eq_ok_iff.1 h
  obtain ⟨⟨_, s⟩, -, h⟩ := bind_eq_ok_iff.1 h
  obtain ⟨⟨_, s⟩, -, ⟨⟩⟩ := bind_eq_ok_iff.1 h
  exact writable_of_lexeme hheadword

theorem isName_of_marker {a : Affix} (h : marker s = .ok (a, rest)) : IsName isIdentChar a.name := by
  unfold marker at h
  split at h
  · obtain ⟨⟨name, s⟩, hname, ⟨⟩⟩ := bind_eq_ok_iff.1 h
    exact isName_of_run hname
  · obtain ⟨⟨name, s⟩, hname, h⟩ := bind_eq_ok_iff.1 h
    obtain ⟨⟨_, s⟩, -, ⟨⟩⟩ := bind_eq_ok_iff.1 h
    exact isName_of_run hname

theorem isName_of_affix {d : AffixDefinition} (h : affix s = .ok d) :
    IsName isIdentChar d.affix.name := by
  obtain ⟨⟨name, s⟩, hname, h⟩ := bind_eq_ok_iff.1 h
  obtain ⟨⟨bag, s⟩, -, h⟩ := bind_eq_ok_iff.1 h
  obtain ⟨⟨era, s⟩, -, h⟩ := bind_eq_ok_iff.1 h
  obtain ⟨⟨form, s⟩, -, h⟩ := bind_eq_ok_iff.1 h
  obtain ⟨⟨origins, s⟩, -, ⟨⟩⟩ := bind_eq_ok_iff.1 h
  exact isName_of_marker hname

theorem legible_of_lang {r : Record} (h : lang s = .ok r) : r.Legible := by
  obtain ⟨⟨child, s⟩, hchild, h⟩ := bind_eq_ok_iff.1 h
  obtain ⟨⟨_, s⟩, -, h⟩ := bind_eq_ok_iff.1 h
  obtain ⟨⟨parent, s⟩, hparent, ⟨⟩⟩ := bind_eq_ok_iff.1 h
  exact ⟨isName_of_scope hchild, isName_of_scope hparent⟩

theorem legible_of_includes {r : Record} (h : includes s = .ok r) : r.Legible := by
  have hpath : ∀ path s : List Char, (if path.isEmpty then
      (.error (.expected "include path" s) : Except ReadFault Record)
        else .ok (.includes (String.ofList path))) = .ok r → r.Legible := by
    intro path s h
    split at h
    · cases h
    · cases h
      trivial
  unfold includes at h
  dsimp only at h
  split at h
  · obtain ⟨⟨_, s⟩, -, h⟩ := bind_eq_ok_iff.1 h
    exact hpath _ _ h
  · exact hpath _ _ h

theorem legible_of_record {line : List Char} {r : Record} (h : record line = .ok r) : r.Legible := by
  unfold record at h
  dsimp only at h
  split at h
  · obtain ⟨t, ht, rfl⟩ := map_eq_ok_iff.1 h
    exact writable_of_template ht
  · obtain ⟨d, hd, rfl⟩ := map_eq_ok_iff.1 h
    exact isName_of_affix hd
  · obtain ⟨e, he, rfl⟩ := map_eq_ok_iff.1 h
    exact writable_of_entry he
  · exact legible_of_lang h
  · exact legible_of_includes h
  · cases h

end Reading

theorem Record.legible_of_parseAll {path : Option Path} {text : String} {records : List Record}
    (h : parseAll path text = .ok records) : ∀ r ∈ records, r.Legible := by
  intro r hr
  obtain ⟨line, -, hline⟩ := exists_of_mem_forall₂ (mapM_eq_ok_iff.1 h) hr
  exact legible_of_record (mapError_eq_ok_iff.1 hline)

namespace Lexicon

variable {files : FileStore} {root : Path} {lex : Lexicon} {item : Scope × Record}

/-- The records of a piece are legible; those of a file will be read off its text. -/
def Piece.Legible : Piece → Prop
  | .file _ _ => True
  | .records _ _ inside => ∀ r ∈ inside, r.Legible

theorem legible_of_mem_said {scope : Scope} {r : Record} (h : r.Legible) (hitem : item ∈ said scope r) :
    item.2.Legible := by
  cases r <;> simp_all [said, Record.Legible]

theorem Inlines.legible {reading : List Location} {piece : Piece} {items : List (Scope × Record)}
    {sources : List Path} (h : Inlines files reading piece items sources) (hpiece : piece.Legible) :
    ∀ item ∈ items, item.2.Legible := by
  induction h with
  | file opens _ ih =>
    obtain ⟨f, -, hparse⟩ := opens.exists_file
    exact ih (Record.legible_of_parseAll hparse)
  | nil => simp
  | plain _ _ ih =>
    obtain ⟨hrecord, hrest⟩ := List.forall_mem_cons.1 hpiece
    exact List.forall_mem_append.2 ⟨fun item hitem => legible_of_mem_said hrecord hitem, ih hrest⟩
  | named _ _ _ ihInside ihRest =>
    obtain ⟨hrecord, hrest⟩ := List.forall_mem_cons.1 hpiece
    refine List.forall_mem_append.2 ⟨List.forall_mem_append.2 ⟨fun item hitem => ?_, ?_⟩, ihRest hrest⟩
    · exact legible_of_mem_said hrecord hitem
    · exact ihInside trivial

/-- An entry is stored under the name on its headword, and under the scope if there is one on it. -/
structure Keyed (key : Scope × String) (e : Entry) : Prop where
  writable : e.lexeme.Writable
  name : key.2 = e.lexeme.name
  scope : ∀ s ∈ e.lexeme.scope, key.1 = s

structure Legible (lex : Lexicon) : Prop where
  entries : ∀ pair ∈ lex.entries, Keyed pair.1 pair.2
  affixes : ∀ pair ∈ lex.affixes, IsName isIdentChar pair.1.2.name
  patterns : ∀ pair ∈ lex.templates, ∀ f ∈ pair.2.patterns, f.Writable
  children : ∀ pair ∈ lex.parents, IsName isIdentChar pair.1.name

theorem legible_empty : Lexicon.empty.Legible :=
  ⟨nofun, nofun, nofun, nofun⟩

theorem Legible.reordered (h : lex.Legible) (order : Option RuleOrder) :
    { lex with order := order }.Legible :=
  ⟨h.entries, h.affixes, h.patterns, h.children⟩

theorem Legible.withOrder (h : lex.Legible) (order : RuleOrder) : (lex.withOrder order).Legible :=
  h.reordered (some order)

theorem Legible.withItem (h : lex.Legible) (hitem : item.2.Legible) : (lex.withItem item).Legible := by
  obtain ⟨scope, record⟩ := item
  cases record with
  | entry e =>
    refine ⟨List.forall_mem_append.2 ⟨h.entries, ?_⟩, h.affixes, h.patterns, h.children⟩
    refine List.forall_mem_singleton.2 ⟨hitem, rfl, fun s hs => ?_⟩
    rw [entryScope, Option.mem_def.1 hs, Option.getD_some]
  | template t =>
    refine ⟨h.entries, h.affixes, List.forall_mem_append.2 ⟨h.patterns, ?_⟩, h.children⟩
    exact List.forall_mem_singleton.2 hitem
  | lang child parent path =>
    exact ⟨h.entries, h.affixes, h.patterns, List.forall_mem_cons.2 ⟨hitem.1, h.children⟩⟩
  | affix d =>
    refine ⟨h.entries, List.forall_mem_append.2 ⟨h.affixes, ?_⟩, h.patterns, h.children⟩
    exact List.forall_mem_singleton.2 hitem
  | includes path => exact h

theorem Legible.foldl_withItem {items : List (Scope × Record)} (h : lex.Legible)
    (hitems : ∀ item ∈ items, item.2.Legible) : (items.foldl Lexicon.withItem lex).Legible := by
  induction items generalizing lex with
  | nil => exact h
  | cons item items ih =>
    obtain ⟨hitem, hrest⟩ := List.forall_mem_cons.1 hitems
    exact ih (h.withItem hitem) hrest

/-- A loaded lexicon is legible, and no two of its entries have one key. -/
theorem legible_of_load (h : load files root = .ok lex) :
    lex.Legible ∧ (lex.entries.map Prod.fst).Nodup := by
  obtain ⟨items, hinlines, hnodup, hlex⟩ := exists_items_of_load h
  have hfold := legible_empty.foldl_withItem (hinlines.legible trivial)
  refine ⟨?_, ?_⟩
  · rw [hlex]
    exact ⟨hfold.entries, hfold.affixes, hfold.patterns, hfold.children⟩
  · have hentries : lex.entries = items.filterMap entryOf := by
      rw [hlex]
      exact entries_foldl_withItem
    rw [hentries]
    exact nodup_entryKeys hnodup

/-- The patterns of a template are writable. -/
theorem Legible.writable_of_patterns (h : lex.Legible) {template : Option String} {found : List Frame}
    (hfound : lex.patterns template = .ok found) : ∀ f ∈ found, f.Writable := by
  cases template with
  | none =>
    cases hfound
    simp [Frame.empty, Frame.Writable.mk]
  | some name =>
    obtain ⟨t, ht, rfl⟩ := map_eq_ok_iff.1 hfound
    unfold findTemplate at ht
    split at ht
    · next hlookup =>
      cases ht
      obtain ⟨before, after, htemplates, -⟩ := List.lookup_eq_some_iff.1 hlookup
      exact h.patterns _ (htemplates ▸ List.mem_append_right _ List.mem_cons_self)
    · cases ht

/-- The root scope has no parent. -/
theorem Legible.lookup_root (h : lex.Legible) : lex.parents.lookup .root = none := by
  refine List.lookup_eq_none_iff.2 fun pair hpair => bne_iff_ne.2 fun heq => ?_
  exact (h.children pair hpair).1 (heq ▸ rfl)

end Lexicon

end Etymon
