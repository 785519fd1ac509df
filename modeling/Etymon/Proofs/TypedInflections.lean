import Etymon.Proofs.Listing
import Etymon.Proofs.ReadySessions
import Etymon.Proofs.Singly
import Etymon.Proofs.TagNotation
import Etymon.Text.Replace

/-!
# Inflections that are typed

Inflecting a text puts the patterns of a template around a reference to an entry, evolves the forms of all
lexemes in one call, and deals the results out. A pattern with the lexeme in the place of its `$` can be
typed as well. It is read back as the lexeme inside the affixes of the pattern, it is resolved to the same
form, and it evolves alone to what it evolved to among the others.

## Main results

* `Frame.replacing_render`: a pattern with a stem in the place of its `$`.
* `Lexicon.resolve_reference`: a reference to an entry stands for the name that led to it.
* `Session.forall₂_deal`: results are dealt out to the patterns that they belong to.
* `Session.inflect_as_typed`: inflecting a text agrees with typing the inflected forms.
-/

namespace Etymon

/-! ## The place of the stem -/

theorem Text.replaceFrom_append {c : Char} (new : List Char) {front : List Char} (h : c ∉ front)
    (rest : List Char) :
    replaceFrom [c] new 0 (front ++ rest) = front ++ replaceFrom [c] new 0 rest := by
  induction front with
  | nil => rfl
  | cons d front ih =>
    obtain ⟨hd, hfront⟩ := not_or.1 (mt List.mem_cons.2 h)
    simp [replaceFrom, hd, ih hfront]

/-- The only occurrence of a character gives way. -/
theorem Text.replaceFrom_only {c : Char} (new : List Char) {front rest : List Char} (hfront : c ∉ front)
    (hrest : c ∉ rest) : replaceFrom [c] new 0 (front ++ c :: rest) = front ++ (new ++ rest) := by
  have hend := replaceFrom_append new hrest []
  rw [List.append_nil] at hend
  rw [replaceFrom_append new hfront]
  simp [replaceFrom, hend]

namespace Frame

/-- Affixes are written without the sign for the stem. -/
theorem not_mem_renderPrefixes {names : List String} (h : ∀ name ∈ names, IsName Reading.isIdentChar name) :
    '$' ∉ (renderPrefixes names).toList := by
  induction names with
  | nil => simp [renderPrefixes]
  | cons name outer ih =>
    obtain ⟨hname, houter⟩ := List.forall_mem_cons.1 h
    have hfree : '$' ∉ name.toList := fun hmem => absurd (hname.2 '$' hmem) (by decide)
    rw [Reading.toList_renderPrefixes_cons]
    simp [hfree, ih houter]

theorem not_mem_renderSuffixes {names : List String} (h : ∀ name ∈ names, IsName Reading.isIdentChar name) :
    '$' ∉ (renderSuffixes names).toList := by
  induction names with
  | nil => simp [renderSuffixes]
  | cons name outer ih =>
    obtain ⟨hname, houter⟩ := List.forall_mem_cons.1 h
    have hfree : '$' ∉ name.toList := fun hmem => absurd (hname.2 '$' hmem) (by decide)
    rw [Reading.toList_renderSuffixes_cons]
    simp [hfree, ih houter]

/-- A stem in the place of the `$` of a pattern stands inside the affixes of the pattern. -/
theorem replacing_render {f : Frame} (hf : f.Writable) (stem : String) :
    Text.replacing f.render "$" stem = f.around stem := by
  have hpattern : f.render.toList =
      (renderPrefixes f.prefixes).toList ++ '$' :: (renderSuffixes f.suffixes).toList :=
    Reading.toList_around f "$"
  have hreplaced := Text.replaceFrom_only stem.toList (not_mem_renderPrefixes hf.prefixes)
    (not_mem_renderSuffixes hf.suffixes)
  rw [← String.toList_inj, Text.replacing, String.toList_ofList, hpattern, Reading.toList_around]
  exact hreplaced

end Frame

/-! ## References to entries -/

namespace Lexicon

variable {lex : Lexicon} {scope owner : Scope} {entry : Entry} {l l' : Lexeme}

/-- Lexemes of one name that lead to one entry stand for the same form. -/
theorem lexemeForm_congr {resolve : List String → Scope → Word → Except Error Form}
    (hname : l'.name = l.name) (h : lex.findEntry l'.name (l'.scope.getD scope) =
      lex.findEntry l.name (l.scope.getD scope)) :
    lex.lexemeForm resolve [] scope l' = lex.lexemeForm resolve [] scope l := by
  rw [lexemeForm, lexemeForm, h, hname]
  rfl

/-- An entry is found again by its own name, from the scope on its headword or else from the same
scope. -/
theorem findEntry_reference (hlegible : lex.Legible)
    (h : lex.findEntry l.name scope = .ok (owner, entry)) :
    entry.lexeme.name = l.name ∧
      lex.findEntry entry.lexeme.name (entry.lexeme.scope.getD scope) = .ok (owner, entry) := by
  have hlookup := lookup_of_findEntry h
  obtain ⟨before, after, hentries, -⟩ := List.lookup_eq_some_iff.1 hlookup
  have hkeyed : Keyed (owner, l.name) entry :=
    hlegible.entries _ (hentries ▸ List.mem_append_right _ List.mem_cons_self)
  have hname : l.name = entry.lexeme.name := hkeyed.name
  rw [← hname]
  cases hscope : entry.lexeme.scope with
  | none => exact ⟨rfl, h⟩
  | some s =>
    obtain rfl : owner = s := hkeyed.scope s hscope
    exact ⟨rfl, findEntry_of_lookup hlookup⟩

/-- A reference to an entry in a pattern stands for the name that led to the entry. -/
theorem resolve_reference (hlegible : lex.Legible) (hscope : l.scope = none)
    (h : lex.findEntry l.name scope = .ok (owner, entry)) (f : Frame) :
    lex.resolve (.bracket f (.ofLexeme ⟨entry.lexeme.name, some (entry.lexeme.scope.getD scope)⟩)) scope =
      lex.resolve (.lexeme f l) scope := by
  obtain ⟨hname, hfound⟩ := findEntry_reference hlegible h
  have hform : ∀ resolve, lex.lexemeForm resolve [] scope
      ⟨entry.lexeme.name, some (entry.lexeme.scope.getD scope)⟩ = lex.lexemeForm resolve [] scope l :=
    fun _ => lexemeForm_congr hname (by rw [hscope]; exact hfound.trans h.symm)
  simp only [resolve, resolveWithin, Word.ofLexeme, Word.expand, hform, Expansion.frame_empty, bind_pure]

end Lexicon

/-! ## Dealing out -/

namespace Session

section

variable {α β : Type} {R : Frame × α → β → Prop}

theorem forall₂_zip_patterns {pairs : List (Frame × α)} {results : List β}
    (h : List.Forall₂ R pairs results) (rest : List β) :
    List.Forall₂ (fun pair dealt => dealt.1 = pair.1 ∧ R pair dealt.2) pairs
      ((pairs.map Prod.fst).zip (results ++ rest)) := by
  induction h with
  | nil => exact .nil
  | cons hfirst _ ih => exact .cons ⟨rfl, hfirst⟩ ih

/-- The results of all patterns, dealt out, are back with the patterns that they belong to. -/
theorem forall₂_deal {inflections : List (Lexeme × List (Frame × α))} {results : List β}
    (h : List.Forall₂ R (inflections.flatMap Prod.snd) results) :
    List.Forall₂ (fun inflection dealt => dealt.1 = inflection.1 ∧
        List.Forall₂ (fun pair dealt => dealt.1 = pair.1 ∧ R pair dealt.2) inflection.2 dealt.2)
      inflections (deal (inflections.map fun pair => (pair.1, pair.2.map Prod.fst)) results) := by
  induction inflections generalizing results with
  | nil => exact .nil
  | cons inflection inflections ih =>
    obtain ⟨l, pairs⟩ := inflection
    rw [List.flatMap_cons] at h
    have hfirst := List.forall₂_take pairs.length h
    have hrest := List.forall₂_drop pairs.length h
    rw [List.take_left] at hfirst
    rw [List.drop_left] at hrest
    rw [List.map_cons, deal, List.length_map]
    refine .cons ⟨rfl, ?_⟩ (ih hrest)
    have hzip := forall₂_zip_patterns hfirst (results.drop pairs.length)
    rwa [List.take_append_drop] at hzip

end

/-! ## Typing -/

variable {σ : Type} {engine : Engine σ} {laws : String → Law} {running : σ → Option String}
  {texts : Set String} {project : Project} {files : FileStore} {text : String} {s s' : Session σ}
  {lex : Lexicon} {scope : Scope} {l : Lexeme} {f : Frame}

/-- The inflections of a lexeme without a scope of its own are the patterns of its entry's template in
order, each with the form that the lexeme has inside the affixes of the pattern. -/
theorem exists_of_inflectionsOf {pair : Lexeme × List (Frame × Form)} (hlegible : lex.Legible)
    (hscope : pair.1.scope = none) (h : inflectionsOf lex scope l = .ok pair) :
    ∃ owner entry, lex.findEntry pair.1.name scope = .ok (owner, entry) ∧
      lex.patterns entry.template = .ok (pair.2.map Prod.fst) ∧
      ∀ inflection ∈ pair.2, lex.resolve (.lexeme inflection.1 pair.1) scope = .ok inflection.2 := by
  obtain ⟨⟨owner, entry⟩, hentry, h⟩ := bind_eq_ok_iff.1 h
  obtain ⟨inflections, hinflections, ⟨⟩⟩ := bind_eq_ok_iff.1 h
  obtain ⟨patterns, hpatterns, hforms⟩ := bind_eq_ok_iff.1 hinflections
  dsimp only at hscope hentry hforms
  rw [hscope, Option.getD_none] at hentry hforms
  have hform : ∀ (f : Frame) (inflection : Frame × Form), (do
      return (f, ← lex.substitute f
        (.ofLexeme ⟨entry.lexeme.name, some (entry.lexeme.scope.getD scope)⟩) scope)) = .ok inflection →
      inflection.1 = f ∧ lex.resolve (.lexeme inflection.1 l) scope = .ok inflection.2 := by
    rintro f inflection h
    obtain ⟨form, hform, ⟨⟩⟩ := bind_eq_ok_iff.1 h
    exact ⟨rfl, (Lexicon.resolve_reference hlegible hscope hentry f).symm.trans hform⟩
  have hforms := (mapM_eq_ok_iff.1 hforms).imp hform
  have hfirst := map_eq_map_of_forall₂ (f := id) (g := Prod.fst) hforms fun _ _ h => h.1.symm
  rw [List.map_id] at hfirst
  refine ⟨owner, entry, hentry, hfirst ▸ hpatterns, fun inflection hmem => ?_⟩
  obtain ⟨f, -, -, hform⟩ := exists_of_mem_forall₂ hforms hmem
  exact hform

/-- A pattern is typed with a lexeme in the place of its `$`, behind a bag of tags. -/
theorem parse_pattern {bag : Tags} (hbag : bag.Writable) (hf : f.Writable) (hl : l.Writable) :
    Sentence.parse (bag.render ++ Text.replacing f.render "$" l.render) = .ok ⟨bag, [.lexeme f l]⟩ := by
  rw [Frame.replacing_render hf]
  exact Sentence.parse_render_tags_append (w := .lexeme f l) hbag trivial ⟨hf, hl⟩

/-- Evolving a typed pattern evolves the form that the lexeme has inside the affixes of the pattern. -/
theorem fst_result_evolve_pattern {paths : List Path} {bag : Tags} {form : Form}
    (hdigest : Set.InjOn textDigest texts) (hholds : files.Holds texts)
    (hs : Grounded texts files.workDir s.project s.lexicon)
    (hload : loadLexicon files s.project = .ok (lex, paths)) (hbag : bag.Writable) (hf : f.Writable)
    (hl : l.Writable)
    (hform : lex.resolve (.lexeme f l) (bag.scope?.getD s.metadata.defaultScope) = .ok form) :
    ((evolve engine files (bag.render ++ Text.replacing f.render "$" l.render)).result s).1 =
      ((Evolver.evolve engine files [.form form]).result s.evolver).1 := by
  obtain ⟨cache, hcurrent, -⟩ := currentLexicon_of_load hdigest hholds hs hload
  have hresolve : (Session.resolve files
      (bag.render ++ Text.replacing f.render "$" l.render)).result s =
        (.ok [form], { s with lexicon := cache }) := by
    rw [Session.resolve, readSentence, Action.result_bind, Action.result_ofExcept,
      parse_pattern hbag hf hl]
    dsimp only
    rw [Action.result_bind_ok hcurrent, Action.result_bind_get, Action.result_ofExcept]
    simp only [Lexicon.resolveSentence, Sentence.scopeOr, List.mapM_cons, List.mapM_nil, hform, bind,
      Except.bind, pure, Except.pure]
  rw [evolve, Action.result_bind_ok hresolve, onEvolver, Action.result_part]
  rfl

/-- What is inflected can be written. -/
theorem writable_of_inflect {found : List (Lexeme × List (Frame × Evolved))}
    (h : ((inflect engine files text).result s).1 = .ok found) (hl : l ∈ found.map Prod.fst) :
    l.Writable := by
  obtain ⟨sentence, -, -, -, -, -, hparse, -⟩ := inflect_eq_ok_iff.1 (Prod.ext h rfl)
  rw [lexemes_of_inflect h hparse, mem_distinct, List.mem_flatMap] at hl
  obtain ⟨w, hw, hl⟩ := hl
  exact (Sentence.writable_of_parse hparse w hw).lexemes l (Word.mem_lexemes_iff.2 (.inl hl))

/-- After any history that begins with an engine that is not running, each lexeme without a scope of its
own that inflecting a text gives stands with the patterns of its entry's template in order, and with the
pattern that adds nothing if its entry has none. What stands with a pattern is the only result of evolving
the tags of the text followed by the pattern with the lexeme in the place of its `$`, before the text is
inflected and after. -/
theorem inflect_as_typed {d : Desk σ} {found : List (Lexeme × List (Frame × Evolved))}
    (hengine : engine.WordWise laws project.changesPath running) (hdigest : Set.InjOn textDigest texts)
    (hd : d.ReachedIdle engine running texts project)
    (hinflect : (inflect engine d.files text).result d.session = (.ok found, s')) :
    ∃ sentence base, Sentence.parse text = .ok sentence ∧
      Lexicon.load d.files project.lexiconPath = .ok base ∧
      ∀ l inflected, (l, inflected) ∈ found → l.scope = none →
        ∃ owner entry, base.findEntry l.name (sentence.scopeOr d.session.metadata.defaultScope) =
            .ok (owner, entry) ∧
          base.patterns entry.template = .ok (inflected.map Prod.fst) ∧
          (entry.template = none → inflected.map Prod.fst = [.empty]) ∧
          ∀ f e, (f, e) ∈ inflected → ∀ s, s = d.session ∨ s = s' →
            ((evolve engine d.files
              (sentence.tags.render ++ Text.replacing f.render "$" l.render)).result s).1 = .ok [e] := by
  obtain ⟨hholds, ⟨rfl, hgrounded⟩, hevolver⟩ := Desk.ready_of_reachedIdle hengine hdigest hd
  have hwritable := fun l => writable_of_inflect (l := l) (congrArg Prod.fst hinflect)
  obtain ⟨sentence, lex, t, inflections, evolved, evolver, hparse, hcurrent, hinflections, hevolved, rfl,
    rfl⟩ := inflect_eq_ok_iff.1 hinflect
  obtain ⟨paths, cache, hload, rfl, hcache⟩ :=
    load_of_currentLexicon hdigest hholds hgrounded hcurrent
  obtain ⟨order, base, horder, hbase, rfl, -⟩ := loadLexicon_eq_ok_iff.1 hload
  obtain ⟨rules, hread, -⟩ := RuleOrder.load_eq_ok_iff.1 horder
  have hlegible := (Lexicon.legible_of_load hbase).1.withOrder order
  -- each form evolves alone to what it evolved to among the others, and the results are dealt out
  have hsingly := Evolver.evolve_singly hengine hread hdigest (hholds _ _ hread) hevolver hevolved
  have hforms : (inflections.flatMap fun pair => pair.2.map Prod.snd).map Evolvable.form =
      (inflections.flatMap Prod.snd).map fun inflection => .form inflection.2 := by
    simp [List.map_flatMap, Function.comp_def]
  rw [hforms, List.forall₂_map_left_iff] at hsingly
  have hdealt := forall₂_deal hsingly
  refine ⟨sentence, base, hparse, hbase, fun l inflected hmem hscope => ?_⟩
  have hl := hwritable l (List.mem_map_of_mem hmem)
  obtain ⟨⟨_, forms⟩, hinflection, ⟨rfl, hpairs⟩⟩ := exists_of_mem_forall₂ hdealt hmem
  obtain ⟨_, -, hinflection⟩ := exists_of_mem_forall₂ (mapM_eq_ok_iff.1 hinflections) hinflection
  obtain ⟨owner, entry, hentry, hpatterns, hresolved⟩ :=
    exists_of_inflectionsOf hlegible hscope hinflection
  have hfirst := map_eq_map_of_forall₂ (f := Prod.fst) (g := Prod.fst) hpairs fun _ _ h => h.1.symm
  dsimp only at hpatterns hresolved hfirst
  rw [hfirst] at hpatterns
  refine ⟨owner, entry, hentry, hpatterns, fun hnone => ?_, fun f e hpair => ?_⟩
  · rw [hnone] at hpatterns
    exact (Except.ok.inj hpatterns).symm
  · have hf := hlegible.writable_of_patterns hpatterns f (List.mem_map_of_mem hpair)
    have hbag := Sentence.tags_writable_of_parse hparse
    obtain ⟨⟨_, form⟩, hform, rfl, hbefore, hafter⟩ := exists_of_mem_forall₂ hpairs hpair
    rintro s (rfl | rfl)
    · exact (fst_result_evolve_pattern hdigest hholds hgrounded hload hbag hf hl
        (hresolved _ hform)).trans hbefore
    · exact (fst_result_evolve_pattern (s := { d.session with lexicon := cache, evolver }) hdigest hholds
        hcache hload hbag hf hl (hresolved _ hform)).trans hafter

/-! ### An old stone and a rock -/

def numberedText : String :=
  "template &number $ $.PL\naffix .PL *li plural\n" ++
    "entry &number \x7bscope:old\x7d <stone> *ata (n.) a stone\nentry <rock> *ota (n.) a rock\n"

def numberedDesk : Desk (Option String) :=
  lexiconDesk numberedText none

def stoneAndRock : String :=
  "\x7bscope:old\x7d <stone> !+ <rock>"

def stoneAndRockInflected : List (Lexeme × List (Frame × Evolved)) :=
  [(⟨"stone", none⟩, [(.empty, ⟨"ata", "ada", "ada"⟩), (⟨[], ["PL"]⟩, ⟨"ata.li", "ada.li", "ada.li"⟩)]),
    (⟨"rock", none⟩, [(.empty, ⟨"ota", "oda", "oda"⟩)])]

set_option maxRecDepth 100000 in
/-- The plural of the stone is what evolves from it when it is typed under the same tags. -/
theorem inflect_as_typed_stone : ∃ s',
    (inflect (.ofLaw voicing ⟨"changes.lsc"⟩) numberedDesk.files stoneAndRock).result
      numberedDesk.session = (.ok stoneAndRockInflected, s') ∧
    ∀ s, s = numberedDesk.session ∨ s = s' →
      ((evolve (.ofLaw voicing ⟨"changes.lsc"⟩) numberedDesk.files
        "\x7bscope:old\x7d<stone>.PL").result s).1 = .ok [⟨"ata.li", "ada.li", "ada.li"⟩] := by
  have hdigest : Set.InjOn textDigest {known | known ∈ [voicingText, numberedText]} :=
    injOn_textDigest_of_nodup (by decide +kernel)
  have hreached : numberedDesk.ReachedIdle (.ofLaw voicing ⟨"changes.lsc"⟩) id
      {known | known ∈ [voicingText, numberedText]} ⟨⟨""⟩⟩ :=
    .opened _ _ _ (holds_lexiconFiles numberedText) rfl
  obtain ⟨hinflect, hbag⟩ :
      ((inflect (.ofLaw voicing ⟨"changes.lsc"⟩) numberedDesk.files stoneAndRock).result
        numberedDesk.session).1.toOption = some stoneAndRockInflected ∧
      (Sentence.parse stoneAndRock).toOption.map (·.tags.render) = some "\x7bscope:old\x7d" := by
    decide +kernel
  rw [toOption_eq_some_iff] at hinflect
  have hinflect := Prod.ext (y := (_, _)) hinflect rfl
  obtain ⟨sentence, base, hparse, -, htyped⟩ :=
    inflect_as_typed (Engine.wordWise_ofLaw voicing ⟨"changes.lsc"⟩) hdigest hreached hinflect
  rw [hparse] at hbag
  have hbag : sentence.tags.render = "\x7bscope:old\x7d" := Option.some.inj hbag
  obtain ⟨owner, entry, -, -, -, hplural⟩ := htyped _ _ List.mem_cons_self rfl
  have hplural := hplural ⟨[], ["PL"]⟩ ⟨"ata.li", "ada.li", "ada.li"⟩ (by simp)
  have hpattern : Text.replacing (Frame.render ⟨[], ["PL"]⟩) "$" (Lexeme.render ⟨"stone", none⟩) =
      "<stone>.PL" := by decide
  rw [hbag, hpattern] at hplural
  exact ⟨_, hinflect, hplural⟩

end Session

end Etymon
