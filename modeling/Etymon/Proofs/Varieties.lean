import Etymon.Proofs.LoadedLexicon
import Etymon.Proofs.NamedLexemes
import Etymon.Proofs.Resolution
import Etymon.Proofs.ScopeChains

/-!
# Language varieties keep to themselves

A definition is found along the chain of the scope that a name is looked up in, and what it is made of is
looked up along the chain of the scope where it was found, which lies inside of the first. So resolving a
word consults no other scopes than those on the chain it starts from and on the chains of the scopes that
are written on lexemes. A definition that is added elsewhere makes no difference.

## Main definitions

* `Lexicon.Adds`: a lexicon with one more definition in a scope.
* `Lexicon.SameBut`: lexicons that give the same definitions in all scopes but one.
* `Lexicon.Apart`: a scope is on none of the chains that lexemes are written with.

## Main results

* `Lexicon.resolveFrom_eq_of_sameBut`, `Lexicon.describe_eq_of_sameBut`: resolving and describing do not
  come to a scope that is apart.
* `Lexicon.additions_stay_apart`: a definition that is added in such a scope changes nothing.
-/

namespace Etymon

/-! ## What an expansion depends on -/

section

variable {x x' : Expansion}

theorem Expansion.frame_congr (haffix : x'.affix = x.affix) (f : Frame) : x'.frame f = x.frame f := by
  have hsuffix : x'.addSuffix = x.addSuffix := by
    funext form name
    rw [addSuffix, addSuffix, haffix]
  have hprefix : x'.addPrefix = x.addPrefix := by
    funext form name
    rw [addPrefix, addPrefix, haffix]
  funext form
  rw [frame, frame, hsuffix, hprefix]

/-- A word is expanded with what its own lexemes stand for. -/
theorem Word.expand_congr (hera : x'.checkEra = x.checkEra) (haffix : x'.affix = x.affix) {w : Word}
    (hlexeme : ∀ l ∈ w.lexemes, x'.lexeme l = x.lexeme l) : w.expand x' = w.expand x := by
  have hframe := Expansion.frame_congr haffix
  induction w with
  | morpheme f m => rw [expand, expand, hera, hframe]
  | lexeme f l => rw [expand, expand, hlexeme l (List.mem_singleton_self l), hframe]
  | bracket f w ih => rw [expand, expand, ih hlexeme, hframe]
  | join h j t ihHead ihTail =>
    obtain ⟨hhead, htail⟩ := List.forall_mem_append.1 hlexeme
    rw [expand, expand, hera, ihHead hhead, ihTail htail]

end

namespace Lexicon

variable {lex lex' : Lexicon} {c s owner : Scope} {w : Word} {l : Lexeme}

/-! ## Adding a definition -/

/-- The lexicon with one more entry or affix in the scope, wherever it stands among the others. The scope
has not defined its name yet. -/
inductive Adds (c : Scope) (lex : Lexicon) : Lexicon → Prop
  | entry {before after : List ((Scope × String) × Entry)} {name : String} {e : Entry}
      (hentries : lex.entries = before ++ after) (hnew : (c, name) ∉ lex.entries.map Prod.fst) :
      Adds c lex { lex with entries := before ++ ((c, name), e) :: after }
  | affix {before after : List ((Scope × Affix) × AffixDefinition)} {a : Affix} {d : AffixDefinition}
      (haffixes : lex.affixes = before ++ after) (hnew : (c, a) ∉ lex.affixes.map Prod.fst) :
      Adds c lex { lex with affixes := before ++ ((c, a), d) :: after }

theorem adds_of_addEntry {e : Entry} (h : lex.addEntry e c = .ok lex') : lex.Adds c lex' := by
  obtain ⟨entries, hdefine, ⟨⟩⟩ := bind_eq_ok_iff.1 h
  obtain ⟨hnew, rfl⟩ := define_eq_ok_iff.1 hdefine
  exact .entry (List.append_nil _).symm hnew

theorem adds_of_addAffix {d : AffixDefinition} (h : lex.addAffix d c = .ok lex') : lex.Adds c lex' := by
  obtain ⟨affixes, hdefine, ⟨⟩⟩ := bind_eq_ok_iff.1 h
  obtain ⟨hnew, rfl⟩ := define_eq_ok_iff.1 hdefine
  exact .affix (List.append_nil _).symm hnew

/-- The lexicons differ in nothing but definitions of one scope. -/
structure SameBut (c : Scope) (lex lex' : Lexicon) : Prop where
  parents : lex'.parents = lex.parents
  order : lex'.order = lex.order
  entries : ∀ s ≠ c, ∀ name, lex'.entries.lookup (s, name) = lex.entries.lookup (s, name)
  affixes : ∀ s ≠ c, ∀ a, lex'.affixes.lookup (s, a) = lex.affixes.lookup (s, a)

theorem lookup_insert_of_ne {κ α : Type} [BEq κ] [LawfulBEq κ] {before after : List (κ × α)}
    {key other : κ} {value : α} (h : other ≠ key) :
    (before ++ (key, value) :: after).lookup other = (before ++ after).lookup other := by
  rw [List.lookup_append, List.lookup_append, List.lookup_cons, beq_eq_false_iff_ne.2 h]

theorem Adds.sameBut (h : lex.Adds c lex') : SameBut c lex lex' := by
  cases h with
  | entry hentries hnew =>
    refine ⟨rfl, rfl, fun s hs name => ?_, fun _ _ _ => rfl⟩
    rw [hentries]
    exact lookup_insert_of_ne (by simp [hs])
  | affix haffixes hnew =>
    refine ⟨rfl, rfl, fun _ _ _ => rfl, fun s hs a => ?_⟩
    rw [haffixes]
    exact lookup_insert_of_ne (by simp [hs])

/-! ## Looking up -/

theorem firstIn_congr {κ α : Type} [BEq κ] {definitions definitions' : List ((Scope × κ) × α)} {name : κ}
    {chain : List Scope}
    (h : ∀ s ∈ chain, definitions'.lookup (s, name) = definitions.lookup (s, name)) :
    firstIn definitions' name chain = firstIn definitions name chain := by
  induction chain with
  | nil => rfl
  | cons s chain ih =>
    obtain ⟨hs, hchain⟩ := List.forall_mem_cons.1 h
    have hrest := ih hchain
    unfold firstIn at hrest ⊢
    rw [List.findSome?_cons, List.findSome?_cons, hs, hrest]

theorem SameBut.scopeChain (h : SameBut c lex lex') : lex'.scopeChain s = lex.scopeChain s := by
  rw [Lexicon.scopeChain, Lexicon.scopeChain, h.parents]

theorem SameBut.checkEra (h : SameBut c lex lex') : lex'.checkEra = lex.checkEra := by
  funext e
  cases e with
  | none => rfl
  | some era => simp only [Lexicon.checkEra, h.order]

theorem SameBut.findEntry (h : SameBut c lex lex') (hs : c ∉ lex.scopeChain s) (name : String) :
    lex'.findEntry name s = lex.findEntry name s := by
  have hchain : ∀ t ∈ lex.scopeChain s, t ≠ c := fun t ht heq => hs (heq ▸ ht)
  rw [Lexicon.findEntry, Lexicon.findEntry, h.scopeChain,
    firstIn_congr fun t ht => h.entries t (hchain t ht) name]

theorem SameBut.findAffix (h : SameBut c lex lex') (hs : c ∉ lex.scopeChain s) (a : Affix) :
    lex'.findAffix a s = lex.findAffix a s := by
  have hchain : ∀ t ∈ lex.scopeChain s, t ≠ c := fun t ht heq => hs (heq ▸ ht)
  rw [Lexicon.findAffix, Lexicon.findAffix, h.scopeChain,
    firstIn_congr fun t ht => h.affixes t (hchain t ht) a]

theorem mem_of_firstIn {κ α : Type} [BEq κ] {definitions : List ((Scope × κ) × α)} {name : κ}
    {chain : List Scope} {found : α} (h : firstIn definitions name chain = some (owner, found)) :
    owner ∈ chain := by
  obtain ⟨t, ht, hfound⟩ := List.exists_of_findSome?_eq_some h
  obtain ⟨_, -, ⟨⟩⟩ := Option.map_eq_some_iff.1 hfound
  exact ht

theorem mem_scopeChain_of_findEntry {name : String} {e : Entry}
    (h : lex.findEntry name s = .ok (owner, e)) : owner ∈ lex.scopeChain s := by
  unfold Lexicon.findEntry at h
  split at h
  · next found => exact mem_of_firstIn (Except.ok.inj h ▸ found)
  · cases h

theorem mem_scopeChain_of_findAffix {a : Affix} {d : AffixDefinition}
    (h : lex.findAffix a s = .ok (owner, d)) : owner ∈ lex.scopeChain s := by
  unfold Lexicon.findAffix at h
  split at h
  · next found => exact mem_of_firstIn (Except.ok.inj h ▸ found)
  · cases h

end Lexicon

/-! ## What is never consulted -/

/-- The lexemes of an affix's own word, and its sources. -/
def AffixDefinition.lexemes (d : AffixDefinition) : List Lexeme :=
  match d.form with
  | some (.word w) => w.lexemes ++ d.sources
  | _ => d.sources

namespace Lexicon

variable {lex lex' : Lexicon} {c s owner : Scope} {w : Word} {l : Lexeme}
  {resolve resolve' : List String → Scope → Word → Except Error Form}
  {visiting : List String}

/-- The lexemes that the definitions are made of. -/
def lexemes (lex : Lexicon) : List Lexeme :=
  (lex.entries.flatMap fun entry => entry.2.form.lexemes) ++
    lex.affixes.flatMap fun affix => affix.2.lexemes

/-- The scope is on none of the chains of the scopes that are written on the lexemes. -/
def Apart (lex : Lexicon) (c : Scope) (lexemes : List Lexeme) : Prop :=
  ∀ l ∈ lexemes, ∀ t ∈ l.scope, c ∉ lex.scopeChain t

theorem Apart.notMem (h : lex.Apart c w.lexemes) (hs : c ∉ lex.scopeChain s) (hl : l ∈ w.lexemes) :
    c ∉ lex.scopeChain (l.scope.getD s) := by
  cases hscope : l.scope with
  | none => exact hs
  | some t => exact h l hl t hscope

theorem Apart.entry (h : lex.Apart c lex.lexemes) {name : String} {e : Entry}
    (found : lex.findEntry name s = .ok (owner, e)) : lex.Apart c e.form.lexemes := by
  obtain ⟨before, after, hentries, -⟩ := List.lookup_eq_some_iff.1 (lookup_of_findEntry found)
  have hmem : ((owner, name), e) ∈ lex.entries := by simp [hentries]
  exact fun l hl => h l (List.mem_append_left _ (List.mem_flatMap.2 ⟨_, hmem, hl⟩))

theorem Apart.affix (h : lex.Apart c lex.lexemes) {a : Affix} {d : AffixDefinition}
    (found : lex.findAffix a s = .ok (owner, d)) : lex.Apart c d.lexemes := by
  obtain ⟨before, after, haffixes, -⟩ := List.lookup_eq_some_iff.1 (lookup_of_findAffix found)
  have hmem : ((owner, a), d) ∈ lex.affixes := by simp [haffixes]
  exact fun l hl => h l (List.mem_append_right _ (List.mem_flatMap.2 ⟨_, hmem, hl⟩))

/-- Two ways to resolve words that agree on what is apart from the scope. -/
def Agree (lex : Lexicon) (c : Scope)
    (resolve resolve' : List String → Scope → Word → Except Error Form) : Prop :=
  ∀ visiting s w, c ∉ lex.scopeChain s → lex.Apart c w.lexemes →
    resolve' visiting s w = resolve visiting s w

/-- The word of an entry is resolved where the entry was found, which is apart from the scope too. -/
theorem lexemeForm_eq_of_sameBut (h : SameBut c lex lex') (hroot : lex.parents.lookup .root = none)
    (hdefs : lex.Apart c lex.lexemes) (hagree : lex.Agree c resolve resolve')
    (hl : c ∉ lex.scopeChain (l.scope.getD s)) :
    lex'.lexemeForm resolve' visiting s l = lex.lexemeForm resolve visiting s l := by
  rw [lexemeForm, lexemeForm, h.findEntry hl]
  cases found : lex.findEntry l.name (l.scope.getD s) with
  | error e => rfl
  | ok pair =>
    obtain ⟨owner, entry⟩ := pair
    have howner : c ∉ lex.scopeChain owner :=
      fun hc => hl (scopeChain_subset hroot (mem_scopeChain_of_findEntry found) hc)
    have hinside : ∀ inside, resolve' inside owner entry.form = resolve inside owner entry.form :=
      fun inside => hagree inside owner entry.form howner (hdefs.entry found)
    simp only [bind, Except.bind, hinside]

theorem joinSources_congr {form form' : Lexeme → Except Error Form} {a : Affix} {sources : List Lexeme}
    (h : ∀ l ∈ sources, form' l = form l) : joinSources form' a sources = joinSources form a sources := by
  cases sources with
  | nil => rfl
  | cons first rest =>
    obtain ⟨hfirst, hrest⟩ := List.forall_mem_cons.1 h
    have hfold : ∀ joined,
        rest.foldlM (fun joined l => return Form.join joined ⟨.head, none⟩ (← form' l)) joined =
          rest.foldlM (fun joined l => return Form.join joined ⟨.head, none⟩ (← form l)) joined := by
      clear h
      induction rest with
      | nil => exact fun _ => rfl
      | cons l rest ih =>
        intro joined
        obtain ⟨hl, hrest⟩ := List.forall_mem_cons.1 hrest
        rw [List.foldlM_cons, List.foldlM_cons, hl]
        exact bind_congr fun joined => ih hrest joined
    simp only [joinSources, hfirst, hfold]

theorem ownForm_eq_of_sameBut (h : SameBut c lex lex') (hroot : lex.parents.lookup .root = none)
    (hdefs : lex.Apart c lex.lexemes) (hagree : lex.Agree c resolve resolve')
    (hs : c ∉ lex.scopeChain s) {d : AffixDefinition} (hd : lex.Apart c d.lexemes) (a : Affix) :
    lex'.ownForm resolve' visiting s a d = lex.ownForm resolve visiting s a d := by
  obtain ⟨stressed, affix, tags, era, form, sources, description⟩ := d
  rcases form with - | w | f
  · refine joinSources_congr fun l hl => lexemeForm_eq_of_sameBut h hroot hdefs hagree ?_
    cases hscope : l.scope with
    | none => exact hs
    | some t => exact hd l hl t hscope
  · exact hagree visiting s w hs fun l hl => hd l (List.mem_append_left _ hl)
  · rcases sources with - | ⟨source, - | ⟨_, _⟩⟩
    · rfl
    · exact hagree visiting s (.bracket f (.ofLexeme source)) hs hd
    · rfl

theorem affixForm_eq_of_sameBut (h : SameBut c lex lex') (hroot : lex.parents.lookup .root = none)
    (hdefs : lex.Apart c lex.lexemes) (hagree : lex.Agree c resolve resolve')
    (hs : c ∉ lex.scopeChain s) (a : Affix) :
    lex'.affixForm resolve' visiting s a = lex.affixForm resolve visiting s a := by
  rw [affixForm, affixForm, h.findAffix hs, h.checkEra]
  cases found : lex.findAffix a s with
  | error e => rfl
  | ok pair =>
    obtain ⟨owner, d⟩ := pair
    have howner : c ∉ lex.scopeChain owner :=
      fun hc => hs (scopeChain_subset hroot (mem_scopeChain_of_findAffix found) hc)
    have hown : ∀ inside,
        lex'.ownForm resolve' inside owner a d = lex.ownForm resolve inside owner a d :=
      fun inside => ownForm_eq_of_sameBut h hroot hdefs hagree howner (hdefs.affix found) a
    simp only [bind, Except.bind, hown]

/-- Resolving to a depth consults neither the scope nor any definition that it reaches there. -/
theorem resolveFrom_eq_of_sameBut (h : SameBut c lex lex') (hroot : lex.parents.lookup .root = none)
    (hdefs : lex.Apart c lex.lexemes)
    (bottom : List String → Scope → Word → Except Error Form) (depth : Nat) :
    lex.Agree c (lex.resolveFrom bottom depth) (lex'.resolveFrom bottom depth) := by
  induction depth with
  | zero => exact fun _ _ _ _ _ => rfl
  | succ depth ih =>
    intro visiting s w hs hw
    rw [resolveFrom, resolveFrom]
    refine Word.expand_congr h.checkEra ?_ fun l hl => ?_
    · funext a
      exact affixForm_eq_of_sameBut h hroot hdefs ih hs a
    · exact lexemeForm_eq_of_sameBut h hroot hdefs ih (hw.notMem hs hl)

theorem describeAffix_eq_of_sameBut (h : SameBut c lex lex') (hs : c ∉ lex.scopeChain s) :
    lex'.describeAffix s = lex.describeAffix s := by
  funext a
  rw [describeAffix, describeAffix, h.findAffix hs]

/-- What a word names is described without going into definitions. -/
theorem describe_eq_of_sameBut (h : SameBut c lex lex') (hs : c ∉ lex.scopeChain s)
    (hw : lex.Apart c w.lexemes) : lex'.describe w s = lex.describe w s := by
  have hframe : lex'.describeFrame s = lex.describeFrame s := by
    funext f stem
    rw [describeFrame, describeFrame, describeAffix_eq_of_sameBut h hs]
  have hall : lex'.describeAll s w = lex.describeAll s w := by
    induction w with
    | morpheme f m => rw [describeAll, describeAll, hframe]
    | lexeme f l =>
      rw [describeAll, describeAll, hframe, h.findEntry (hw.notMem hs (List.mem_singleton_self l))]
    | bracket f w ih => rw [describeAll, describeAll, hframe, ih hw]
    | join head j tail ihHead ihTail =>
      obtain ⟨hhead, htail⟩ := List.forall_mem_append.1 hw
      rw [describeAll, describeAll, ihHead hhead, ihTail htail]
  rw [describe, describe, hall]

theorem Adds.length_eq (h : lex.Adds c lex') :
    lex'.entries.length + lex'.affixes.length = lex.entries.length + lex.affixes.length + 1 := by
  cases h with
  | entry hentries _ => simp [hentries]; omega
  | affix haffixes _ => simp [haffixes]; omega

/-- With one definition more, resolution may go one level deeper; it finds nothing there. -/
theorem resolve_eq_of_adds (h : lex.Adds c lex') (hroot : lex.parents.lookup .root = none)
    (hs : c ∉ lex.scopeChain s) (hw : lex.Apart c w.lexemes) (hdefs : lex.Apart c lex.lexemes) :
    lex'.resolve w s = lex.resolve w s := by
  have hagree := resolveFrom_eq_of_sameBut h.sameBut hroot hdefs
    (fun _ _ w => .error (.cyclicDefinition w.render))
    (lex.entries.length + lex.affixes.length + 1 + 1) [] s w hs hw
  rw [resolve, resolve, resolveWithin_eq_resolveFrom, resolveWithin_eq_resolveFrom, h.length_eq, hagree]
  exact resolveFrom_eq Open.nil (by simp only [Deep]; omega) (by simp only [Deep]; omega) s w

/-- Adding a definition to one variety does not disturb another: a word that is looked up from a scope
whose chain does not hold the variety, with no lexeme in it or in any definition whose own scope leads
there, resolves and is described as before, and fails as before. -/
theorem additions_stay_apart {files : FileStore} {path : Path} {base : Lexicon} {order : Option RuleOrder}
    (hload : load files path = .ok base) (hadds : Adds c { base with order := order } lex')
    (hs : c ∉ base.scopeChain s) (hw : base.Apart c w.lexemes) (hdefs : base.Apart c base.lexemes) :
    lex'.resolve w s = { base with order := order }.resolve w s ∧
      lex'.describe w s = { base with order := order }.describe w s := by
  have hroot : base.parents.lookup .root = none := (legible_of_load hload).1.lookup_root
  exact ⟨resolve_eq_of_adds hadds hroot hs hw hdefs, describe_eq_of_sameBut hadds.sameBut hs hw⟩

/-! ### A new stone -/

def stonesText : String :=
  "lang %new : %old\nentry <stone>%old *ota (n.) a stone\nentry <rock> <stone>%old (n.) a rock\n"

def newStone : Entry where
  template := none
  lexeme := ⟨"stone", none⟩
  tags := .empty
  form := .morpheme .empty ⟨"anu", none⟩
  partOfSpeech := "n."
  definition := "a new stone"

set_option maxRecDepth 100000 in
/-- The new variety gets a stone of its own; to the old one a rock is still made of the old stone. -/
theorem additions_stay_apart_new_stone : ∃ base lex',
    load (Session.lexiconFiles stonesText) ⟨"lexicon.pycl"⟩ = .ok base ∧
    base.addEntry newStone ⟨"new"⟩ = .ok lex' ∧
    lex'.resolve (.ofLexeme ⟨"rock", none⟩) ⟨"old"⟩ = .ok (.leaf ⟨"ota", none⟩) ∧
    lex'.describe (.ofLexeme ⟨"rock", none⟩) ⟨"old"⟩ =
      .ok [(.lexeme ⟨"rock", none⟩, "(n.) a rock")] := by
  have hscopes : ((load (Session.lexiconFiles stonesText) ⟨"lexicon.pycl"⟩).map fun base =>
      ((base.addEntry newStone ⟨"new"⟩).toBool, base.scopeChain ⟨"old"⟩, base.lexemes)).toOption =
        some (true, [⟨"old"⟩, .root], [⟨"stone", some ⟨"old"⟩⟩]) := by
    decide +kernel
  have hrock : ((load (Session.lexiconFiles stonesText) ⟨"lexicon.pycl"⟩).map fun base =>
      ((base.resolve (.ofLexeme ⟨"rock", none⟩) ⟨"old"⟩).toOption,
        (base.describe (.ofLexeme ⟨"rock", none⟩) ⟨"old"⟩).toOption)).toOption =
      some (some (.leaf ⟨"ota", none⟩), some [(.lexeme ⟨"rock", none⟩, "(n.) a rock")]) := by
    decide +kernel
  obtain ⟨base, hload, hbase⟩ := map_eq_ok_iff.1 (toOption_eq_some_iff.1 hscopes)
  simp only [Prod.mk.injEq] at hbase
  obtain ⟨hadd, hchain, hlexemes⟩ := hbase
  rw [hload, toOption_eq_some_iff] at hrock
  obtain ⟨hresolve, hdescribe⟩ := Prod.mk.inj (Except.ok.inj hrock)
  rw [toOption_eq_some_iff] at hresolve hdescribe
  cases hadded : base.addEntry newStone ⟨"new"⟩ with
  | error e => simp [hadded, Except.toBool] at hadd
  | ok lex' =>
    have hold : (⟨"new"⟩ : Scope) ∉ base.scopeChain ⟨"old"⟩ := by
      rw [hchain]
      decide
    have hdefs : base.Apart ⟨"new"⟩ base.lexemes := by
      rw [hlexemes]
      intro l hl t ht
      rw [List.mem_singleton.1 hl] at ht
      exact Option.some.inj ht ▸ hold
    have hadds : Adds ⟨"new"⟩ { base with order := base.order } lex' := adds_of_addEntry hadded
    obtain ⟨hsame, hsame'⟩ := additions_stay_apart (w := .ofLexeme ⟨"rock", none⟩) hload hadds hold
      (by simp [Apart, Word.ofLexeme, Word.lexemes]) hdefs
    exact ⟨base, lex', hload, hadded, hsame.trans hresolve, hsame'.trans hdescribe⟩

end Lexicon

end Etymon
