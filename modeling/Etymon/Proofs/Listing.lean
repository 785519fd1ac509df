import Etymon.Proofs.LoadedLexicon
import Etymon.Proofs.NamedLexemes
import Etymon.Proofs.Rereading
import Etymon.Proofs.ScopeChains

/-!
# Listed entries

The entries of a session are listed with the names they have in their scopes. Such a name can be typed
back if its scope can: a scope from a tag or from the metadata may hold characters that end a name. A
name without a scope is looked up from the default scope of the project, where other entries may hide the
one that was listed; under the root scope none does.

## Main results

* `Session.fst_result_lookup_render`: a lookup of a lexeme by its notation.
* `Session.listed_entry_found_iff`: when a listed entry is found under its name.
-/

namespace Etymon

namespace Lexicon

variable {lex : Lexicon} {scope : Scope} {l : Lexeme}

theorem lookup_of_mem_of_nodup {κ α : Type} [BEq κ] [LawfulBEq κ] {definitions : List (κ × α)} {key : κ}
    {value : α} (hnodup : (definitions.map Prod.fst).Nodup) (h : (key, value) ∈ definitions) :
    definitions.lookup key = some value := by
  obtain ⟨before, after, rfl⟩ := List.append_of_mem h
  have hkey : ∀ other ∈ before, (key == other.1) = false := by
    intro other hother
    rw [List.map_append, List.nodup_append] at hnodup
    exact beq_eq_false_iff_ne.2 fun heq =>
      hnodup.2.2 other.1 (List.mem_map_of_mem hother) key (by simp) heq.symm
  rw [List.lookup_append, List.lookup_eq_none_iff.2 (by simpa using hkey)]
  simp

theorem findEntry_of_lookup {name : String} {e : Entry}
    (h : lex.entries.lookup (scope, name) = some e) : lex.findEntry name scope = .ok (scope, e) := by
  rw [findEntry, firstIn_scopeChain _ h]

/-- What the root scope defines is found from every scope, unless another definition comes first. -/
theorem exists_findEntry_of_root {name : String} {e : Entry}
    (h : lex.entries.lookup (.root, name) = some e) (scope : Scope) :
    ∃ owner entry, lex.findEntry name scope = .ok (owner, entry) := by
  have hsome : (firstIn lex.entries name (lex.scopeChain scope)).isSome = true := by
    rw [firstIn, List.findSome?_isSome_iff]
    exact ⟨.root, root_mem_scopeChain lex scope, by simp [h]⟩
  obtain ⟨⟨owner, entry⟩, hfound⟩ := Option.isSome_iff_exists.1 hsome
  exact ⟨owner, entry, by rw [findEntry, hfound]⟩

theorem describe_ofLexeme (lex : Lexicon) (l : Lexeme) (scope : Scope) :
    lex.describe (.ofLexeme l) scope = (lex.findEntry l.name (l.scope.getD scope)).map fun found =>
      [(.lexeme l, found.2.description)] := by
  cases h : lex.findEntry l.name (l.scope.getD scope) <;>
    simp [describe, Word.ofLexeme, describeAll, describeFrame, Frame.empty, firstOfEach, h, bind,
      Except.bind, pure, Except.pure, Except.map]

end Lexicon

theorem Word.Writable.lexemes {w : Word} (h : w.Writable) : ∀ l ∈ w.lexemes, l.Writable := by
  induction w with
  | morpheme f m => exact List.forall_mem_nil _
  | lexeme f l => exact List.forall_mem_singleton.2 h.2
  | bracket f w ih => exact ih h.2.2
  | join head j tail ihHead ihTail => exact List.forall_mem_append.2 ⟨ihHead h.1, ihTail h.2.2⟩

namespace Session

variable {σ : Type} {files : FileStore} {texts : Set String} {project : Project} {s s' : Session σ}
  {lex : Lexicon} {cache : PathCache Lexicon} {l : Lexeme} {description : String}

/-- Looking a lexeme up by its notation tells of its entry, as it is found from its own scope or else
from the default scope. -/
theorem fst_result_lookup_render (hl : l.Writable)
    (h : (currentLexicon files).result s = (.ok lex, { s with lexicon := cache })) :
    ((lookup files l.render).result s).1 =
      (lex.findEntry l.name (l.scope.getD s.metadata.defaultScope)).map fun found =>
        [(.lexeme l, found.2.description)] := by
  have hrender : (Word.ofLexeme l).render = l.render := Frame.around_empty _
  have hparse : Sentence.parse l.render = .ok ⟨.empty, [.ofLexeme l]⟩ := by
    rw [← hrender]
    exact Sentence.parse_render_of_plain trivial ⟨⟨by simp [Frame.empty], by simp [Frame.empty]⟩, hl⟩
  rw [fst_result_lookup h, hparse]
  have hscope : Sentence.scopeOr ⟨.empty, [.ofLexeme l]⟩ s.metadata.defaultScope =
      s.metadata.defaultScope := rfl
  simp only [bind, Except.bind, List.mapM_cons, List.mapM_nil, hscope, lex.describe_ofLexeme]
  cases lex.findEntry l.name (l.scope.getD s.metadata.defaultScope) <;>
    simp [Except.map, pure, Except.pure, firstOfEach]

/-- A lookup tells of no lexeme that cannot be written. -/
theorem writable_of_lookup {text : String} {items : List (Named × String)}
    (h : ((lookup files text).result s).1 = .ok items) (hl : l ∈ lexemesAmong items) : l.Writable := by
  obtain ⟨sentence, -, -, hparse, -⟩ := lookup_eq_ok_iff.1 (Prod.ext h rfl)
  rw [lexemes_of_lookup h hparse, mem_distinct, List.mem_flatMap] at hl
  obtain ⟨w, hw, hl⟩ := hl
  exact (Sentence.writable_of_parse hparse w hw).lexemes l hl

/-- A listed entry stands in the lexicon under its name, and under its scope if it is listed with one. -/
theorem lookup_of_listed (hlegible : lex.Legible) (hnodup : (lex.entries.map Prod.fst).Nodup)
    (h : (l, description) ∈ lex.entries.map fun (key, e) => (nameOf key.1 e, e.description)) :
    IsName Reading.isLexemeChar l.name ∧ (∀ scope ∈ l.scope, scope.isRoot = false) ∧
    ∃ e, lex.entries.lookup (l.scope.getD .root, l.name) = some e ∧ e.description = description := by
  obtain ⟨⟨key, e⟩, hmem, ⟨⟩⟩ := List.mem_map.1 h
  obtain ⟨owner, name⟩ := key
  have hkeyed := hlegible.entries _ hmem
  obtain rfl : name = e.lexeme.name := hkeyed.name
  have hlookup := Lexicon.lookup_of_mem_of_nodup hnodup hmem
  cases hroot : owner.isRoot with
  | true =>
    obtain rfl := Scope.isRoot_iff.1 hroot
    exact ⟨hkeyed.writable.1, by simp [nameOf, hroot], e, hlookup, rfl⟩
  | false =>
    exact ⟨hkeyed.writable.1, by simp [nameOf, hroot], e, by simpa [nameOf, hroot] using hlookup, rfl⟩

/-- After any history, each listed entry that carries a scope is found under its notation exactly if its
scope can be written, and each that carries none exactly if the entry that is found from the default scope
has its description. The latter is so if the default scope is the root scope; in any case a lookup tells
of the entry that is found. -/
theorem listed_entry_found_iff {engine : Engine σ} {d : Desk σ} {listed : List (Lexeme × String)}
    (hdigest : Set.InjOn textDigest texts) (hd : d.Reached engine texts project)
    (hlisted : (entries d.files).result d.session = (.ok listed, s')) :
    ∃ order base, RuleOrder.load d.files project.changesPath = .ok order ∧
      Lexicon.load d.files project.lexiconPath = .ok base ∧
      ∀ l description, (l, description) ∈ listed →
        (((lookup d.files l.render).result s').1 = .ok [(.lexeme l, description)] ↔
          (∀ scope ∈ l.scope, IsName Reading.isIdentChar scope.name) ∧
          (l.scope = none → ∃ owner entry,
            base.findEntry l.name d.session.metadata.defaultScope = .ok (owner, entry) ∧
            entry.description = description)) ∧
        (l.scope = none → ∃ owner entry,
          base.findEntry l.name d.session.metadata.defaultScope = .ok (owner, entry) ∧
          (d.session.metadata.defaultScope = .root → entry.description = description) ∧
          ((lookup d.files l.render).result s').1 = .ok [(.lexeme l, entry.description)]) := by
  obtain ⟨hholds, rfl, hgrounded⟩ := Desk.upheld_of_reached hdigest hd
  obtain ⟨lex, t, hcurrent, hrest⟩ := Action.result_bind_eq_ok_iff.1 hlisted
  cases hrest
  obtain ⟨paths, cache, hload, rfl, hcache⟩ :=
    load_of_currentLexicon hdigest hholds hgrounded hcurrent
  -- The listing has left a grounded lexicon behind, so the lookup sees the one that was listed.
  obtain ⟨cache', hagain, -⟩ := currentLexicon_of_load (s := { d.session with lexicon := cache })
    hdigest hholds hcache hload
  obtain ⟨order, base, horder, hbase, rfl, -⟩ := loadLexicon_eq_ok_iff.1 hload
  obtain ⟨hlegible, hnodup⟩ := Lexicon.legible_of_load hbase
  refine ⟨order, base, horder, hbase, fun l description hmem => ?_⟩
  obtain ⟨hname, -, e, hlookup, hdescription⟩ :=
    lookup_of_listed (hlegible.withOrder order) hnodup hmem
  have hfind : ∀ name scope, (base.withOrder order).findEntry name scope = base.findEntry name scope :=
    fun _ _ => rfl
  have htold := fun hl : l.Writable => fst_result_lookup_render hl hagain
  simp only [hfind] at htold
  cases hscope : l.scope with
  | none =>
    rw [hscope, Option.getD_none] at hlookup
    have hwritable : l.Writable := ⟨hname, by simp [hscope]⟩
    obtain ⟨owner, entry, hfound⟩ :=
      Lexicon.exists_findEntry_of_root hlookup d.session.metadata.defaultScope
    have hfound : base.findEntry l.name d.session.metadata.defaultScope = .ok (owner, entry) := hfound
    have htold := htold hwritable
    rw [hscope, Option.getD_none, hfound] at htold
    rw [htold]
    refine ⟨?_, fun _ => ⟨owner, entry, hfound, fun hdefault => ?_, rfl⟩⟩
    · simp [hfound, Except.map]
    · have hself := Lexicon.findEntry_of_lookup hlookup
      rw [hfind, ← hdefault, hfound] at hself
      cases hself
      exact hdescription
  | some scope =>
    rw [hscope, Option.getD_some] at hlookup
    refine ⟨⟨fun hfound => ⟨?_, nofun⟩, fun hwritable => ?_⟩, nofun⟩
    · have hl : l.Writable := writable_of_lookup hfound (by simp [lexemesAmong, Named.lexeme?])
      exact hscope ▸ hl.2
    · rw [htold ⟨hname, hscope ▸ hwritable.1⟩, hscope, Option.getD_some]
      have hself := Lexicon.findEntry_of_lookup hlookup
      rw [hfind] at hself
      rw [hself, ← hdescription]
      rfl

/-! ### A stone behind an older stone -/

def twoStones : String :=
  "entry <stone> *ata (n.) a stone\nentry <stone>%old *opa (n.) an old stone\n"

theorem holds_lexiconFiles (text : String) :
    (lexiconFiles text).Holds {known | known ∈ [voicingText, text]} := by
  refine FileStore.holds_of_nodes fun l f hnode => ?_
  simp only [lexiconFiles, List.mem_cons, List.not_mem_nil, Prod.mk.injEq, reduceCtorEq, and_false,
    false_or, or_false, Node.file.injEq] at hnode
  rcases hnode with ⟨-, rfl⟩ | ⟨-, rfl⟩ <;> simp

theorem reached_lexiconDesk (text : String) (scope : Option String) :
    (lexiconDesk text scope).Reached (.ofLaw voicing ⟨"changes.lsc"⟩) {known | known ∈ [voicingText, text]}
      ⟨⟨""⟩⟩ :=
  .opened _ _ _ (holds_lexiconFiles text)

theorem injOn_textDigest_of_nodup {known : List String} (h : (known.map textDigest).Nodup) :
    Set.InjOn textDigest {text | text ∈ known} :=
  fun _ htext _ htext' heq => List.inj_on_of_nodup_map h htext htext' heq

set_option maxRecDepth 100000 in
/-- Input belongs to the old variety, so the name of the first stone leads to the second. -/
theorem listed_entry_found_iff_hidden : ∃ s',
    (entries (lexiconDesk twoStones (some "old")).files).result
        (lexiconDesk twoStones (some "old")).session =
      (.ok [(⟨"stone", none⟩, "(n.) a stone"), (⟨"stone", some ⟨"old"⟩⟩, "(n.) an old stone")], s') ∧
    ((lookup (lexiconDesk twoStones (some "old")).files "<stone>%old").result s').1 =
      .ok [(.lexeme ⟨"stone", some ⟨"old"⟩⟩, "(n.) an old stone")] ∧
    ((lookup (lexiconDesk twoStones (some "old")).files "<stone>").result s').1 =
      .ok [(.lexeme ⟨"stone", none⟩, "(n.) an old stone")] := by
  have hdigest : Set.InjOn textDigest {known | known ∈ [voicingText, twoStones]} :=
    injOn_textDigest_of_nodup (by decide +kernel)
  obtain ⟨hentries, hstone⟩ :
      ((entries (lexiconDesk twoStones (some "old")).files).result
        (lexiconDesk twoStones (some "old")).session).1.toOption =
          some [(⟨"stone", none⟩, "(n.) a stone"), (⟨"stone", some ⟨"old"⟩⟩, "(n.) an old stone")] ∧
      ((lookup (lexiconDesk twoStones (some "old")).files "<stone>").result
        ((entries (lexiconDesk twoStones (some "old")).files).result
          (lexiconDesk twoStones (some "old")).session).2).1.toOption =
          some [(.lexeme ⟨"stone", none⟩, "(n.) an old stone")] := by
    decide +kernel
  rw [toOption_eq_some_iff] at hentries hstone
  have hlisted := Prod.ext (y := (_, _)) hentries rfl
  obtain ⟨_, _, -, -, hfound⟩ :=
    listed_entry_found_iff hdigest (reached_lexiconDesk twoStones (some "old")) hlisted
  have hold := (hfound ⟨"stone", some ⟨"old"⟩⟩ "(n.) an old stone" (by simp)).1.2
    ⟨by decide +kernel, nofun⟩
  exact ⟨_, hlisted, hold, hstone⟩

end Session

end Etymon
