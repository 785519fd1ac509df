import Etymon.Proofs.LoadedLexicon
import Etymon.Proofs.NamedLexemes
import Etymon.Proofs.Resolution

/-!
# Keys tell definitions apart

While a definition is being expanded it is known by a text, made of its name, of the signs that tell a
lexeme, a prefix and a suffix apart, and of the scope it stands in. A name that was read off a text holds
none of the signs that end it, so the text can be taken apart again: in a loaded lexicon no two definitions
have one key. Resolving a word in it is unfolding the word.

## Main definitions

* `Lexicon.DefinitionKey.Legible`: the name of a definition is made of the characters of its kind.

## Main results

* `Lexicon.DefinitionKey.eq_of_text_eq`: the key of a legible definition can be taken apart.
* `Lexicon.Legible.keysApart`: no two definitions of a legible lexicon have one key.
* `Lexicon.resolve_characterized`: resolving gives the unfolding exactly when there is one, and reports
  a cyclic definition exactly when it meets one.
-/

namespace Etymon

open Text Reading

/-! ## Taking a key apart -/

theorem notMem_of_isName {p : Char → Bool} {name : String} {sign : Char} (h : IsName p name)
    (hsign : p sign = false) : sign ∉ name.toList := fun hmem => by
  simpa [hsign] using h.2 sign hmem

/-- Two names end at the first place where a sign stands that cannot be in a name. -/
theorem eq_of_append_sign_eq {p : Char → Bool} {name name' : String} {sign : Char}
    {rest rest' : List Char} (hname : IsName p name) (hname' : IsName p name')
    (hsign : p sign = false)
    (h : name.toList ++ sign :: rest = name'.toList ++ sign :: rest') : name = name' ∧ rest = rest' := by
  have hrun : ∀ {name : String} {rest : List Char}, IsName p name →
      (name.toList ++ sign :: rest).takeWhile p = name.toList := fun hname =>
    takeWhile_append_stop hname.2 (by simp [hsign])
  obtain rfl : name = name' := String.toList_injective (by rw [← hrun hname, h, hrun hname'])
  exact ⟨rfl, (List.cons.inj (List.append_cancel_left h)).2⟩

namespace Lexicon

namespace DefinitionKey

variable {key key' : DefinitionKey}

/-- The name is made of the characters that names of its kind are read from. -/
def Legible : DefinitionKey → Prop
  | entry name _ => IsName isLexemeChar name
  | affix a _ => IsName isIdentChar a.name

theorem toList_text_entry (name : String) (owner : Scope) :
    (entry name owner).text.toList = '<' :: (name.toList ++ '>' :: '%' :: owner.name.toList) := by
  simp [text, entryKey, Scope.render]

theorem toList_text_pre (name : String) (owner : Scope) :
    (affix (.pre name) owner).text.toList = name.toList ++ '.' :: '%' :: owner.name.toList := by
  simp [text, affixKey, Affix.render, Scope.render]

theorem toList_text_suf (name : String) (owner : Scope) :
    (affix (.suf name) owner).text.toList = '.' :: (name.toList ++ '%' :: owner.name.toList) := by
  simp [text, affixKey, Affix.render, Scope.render]

/-- The key of a prefix begins with its name, the others with a sign. -/
theorem text_pre_ne {name : String} {owner : Scope} {sign : Char} {cs : List Char}
    (h : IsName isIdentChar name) (hsign : isIdentChar sign = false) :
    (affix (.pre name) owner).text.toList ≠ sign :: cs := by
  rw [toList_text_pre]
  obtain ⟨c, name', hname⟩ := List.exists_cons_of_ne_nil h.1
  rw [hname]
  rintro ⟨⟩
  exact notMem_of_isName h hsign (hname ▸ List.mem_cons_self)

theorem scope_eq_of_toList_eq {owner owner' : Scope} (h : owner.name.toList = owner'.name.toList) :
    owner = owner' :=
  congrArg Scope.mk (String.toList_injective h)

/-- The key of a legible definition can be taken apart: the first of its signs tells what kind of
definition it is, and the name ends at the next one. -/
theorem eq_of_text_eq (h : key.Legible) (h' : key'.Legible) (htext : key.text = key'.text) :
    key = key' := by
  have hlist := congrArg String.toList htext
  rcases key with ⟨name, owner⟩ | ⟨name | name, owner⟩ <;>
    rcases key' with ⟨name', owner'⟩ | ⟨name' | name', owner'⟩
  case entry.entry =>
    rw [toList_text_entry, toList_text_entry] at hlist
    obtain ⟨rfl, howner⟩ := eq_of_append_sign_eq h h' (by decide) (List.cons.inj hlist).2
    rw [scope_eq_of_toList_eq (List.cons.inj howner).2]
  case affix.pre.affix.pre =>
    rw [toList_text_pre, toList_text_pre] at hlist
    obtain ⟨hname, howner⟩ := eq_of_append_sign_eq h h' (by decide) hlist
    obtain rfl : name = name' := hname
    rw [scope_eq_of_toList_eq (List.cons.inj howner).2]
  case affix.suf.affix.suf =>
    rw [toList_text_suf, toList_text_suf] at hlist
    obtain ⟨hname, howner⟩ := eq_of_append_sign_eq h h' (by decide) (List.cons.inj hlist).2
    obtain rfl : name = name' := hname
    rw [scope_eq_of_toList_eq howner]
  -- a lexeme begins with a bracket, a suffix with a point, and a prefix with its name
  case entry.affix.suf => simp [toList_text_entry, toList_text_suf] at hlist
  case affix.suf.entry => simp [toList_text_entry, toList_text_suf] at hlist
  case affix.pre.entry =>
    exact absurd (hlist.trans (toList_text_entry name' owner')) (text_pre_ne h (by decide))
  case affix.pre.affix.suf =>
    exact absurd (hlist.trans (toList_text_suf name' owner')) (text_pre_ne h (by decide))
  case entry.affix.pre =>
    exact absurd (hlist.symm.trans (toList_text_entry name owner)) (text_pre_ne h' (by decide))
  case affix.suf.affix.pre =>
    exact absurd (hlist.symm.trans (toList_text_suf name owner)) (text_pre_ne h' (by decide))

end DefinitionKey

variable {lex : Lexicon} {files : FileStore} {path : Path}

/-- The definitions of a legible lexicon are legible: an entry stands under the name on its headword. -/
theorem Legible.legible_of_mem_keys (h : lex.Legible) {key : DefinitionKey} (hkey : key ∈ lex.keys) :
    key.Legible := by
  rcases List.mem_append.1 hkey with hmem | hmem
  · obtain ⟨pair, hpair, rfl⟩ := List.mem_map.1 hmem
    have hkeyed := h.entries pair hpair
    have hname := hkeyed.writable.1
    rwa [← hkeyed.name] at hname
  · obtain ⟨pair, hpair, rfl⟩ := List.mem_map.1 hmem
    exact h.affixes pair hpair

theorem Legible.keysApart (h : lex.Legible) : lex.KeysApart := fun _ hkey _ hkey' htext =>
  DefinitionKey.eq_of_text_eq (h.legible_of_mem_keys hkey) (h.legible_of_mem_keys hkey') htext

/-! ## Resolving in a loaded lexicon -/

/-- In a loaded lexicon, whatever its rule order, keys tell definitions apart. Resolving a word goes no
deeper than there are definitions; it gives the unfolding of the word, and nothing where there is none; and
it reports a cyclic definition where unfolding the word meets a definition that is met again inside itself,
and only there. -/
theorem resolve_characterized {base : Lexicon} {order : Option RuleOrder}
    (hload : load files path = .ok base) (hlex : lex = { base with order := order }) :
    lex.KeysApart ∧ ∀ w scope,
      (∀ bottom depth, lex.entries.length + lex.affixes.length < depth →
        lex.resolveFrom bottom depth [] scope w = lex.resolve w scope) ∧
      (∀ form, lex.resolve w scope = .ok form ↔ lex.Unfolds scope (.word w) form) ∧
      ((∃ through, lex.resolve w scope = .error (.cyclicDefinition through)) ↔
        lex.MeetsCycle scope w) := by
  have hkeys : lex.KeysApart := by
    rw [hlex]
    exact ((legible_of_load hload).1.reordered order).keysApart
  exact ⟨hkeys, fun w scope => ⟨fun bottom depth hdepth => resolveFrom_eq_resolve hdepth,
    fun form => hkeys.resolve_eq_ok_iff, hkeys.resolve_cyclic_iff⟩⟩

/-- A heap is made of the plural of a stone, twice; a hen and an egg are each made of the other. -/
def farmText : String :=
  "affix .PL *li plural\nentry <stone> *ata (n.) a stone\n" ++
    "entry <heap> <stone>.PL !+ <stone>.PL (n.) a heap\n" ++
    "entry <hen> <egg> !+ *ta (n.) a hen\nentry <egg> <hen>.PL (n.) an egg\n"

def plural (m : String) : Form :=
  .join (.leaf ⟨m, none⟩) ⟨.head, none⟩ (.leaf ⟨"li", none⟩)

set_option maxRecDepth 100000 in
/-- The plural of the stone is used twice and met once at a time; the hen is met again inside the egg. -/
theorem resolve_characterized_hen : ∃ lex,
    load (Session.lexiconFiles farmText) ⟨"lexicon.pycl"⟩ = .ok lex ∧
    lex.Unfolds .root (.word (.ofLexeme ⟨"heap", none⟩))
      (.join (plural "ata") ⟨.head, none⟩ (plural "ata")) ∧
    lex.MeetsCycle .root (.ofLexeme ⟨"hen", none⟩) := by
  have hresolved : ((load (Session.lexiconFiles farmText) ⟨"lexicon.pycl"⟩).map fun lex =>
      (lex.resolve (.ofLexeme ⟨"heap", none⟩) .root, lex.resolve (.ofLexeme ⟨"hen", none⟩) .root)) =
        .ok (.ok (.join (plural "ata") ⟨.head, none⟩ (plural "ata")),
          .error (.cyclicDefinition "<hen>")) := by
    decide +kernel
  obtain ⟨lex, hload, hlex⟩ := map_eq_ok_iff.1 hresolved
  obtain ⟨hheap, hhen⟩ := Prod.mk.inj hlex
  obtain ⟨-, hchar⟩ := resolve_characterized hload (rfl : lex = { lex with order := lex.order })
  exact ⟨lex, hload, ((hchar _ _).2.1 _).1 hheap, (hchar _ _).2.2.1 ⟨_, hhen⟩⟩

end Lexicon

end Etymon
