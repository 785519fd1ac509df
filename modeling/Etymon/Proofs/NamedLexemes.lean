import Etymon.Proofs.CurrentLexicon
import Etymon.Proofs.Histories

/-!
# The lexemes of a sentence

A lookup goes into brackets and tells of every lexeme that a sentence names. Inflecting a sentence
takes the lexemes between the joiners and does not open brackets, so a lexeme that stands nowhere else
is left out.

## Main definitions

* `Word.lexemes`: the lexemes that a word names, inside of brackets as well.
* `Word.bracketed`: those inside of brackets.

## Main results

* `Lexicon.lexemes_of_describe`: the lexemes that are described are those that the word names.
* `Session.lookup_eq_ok_iff`, `Session.inflect_eq_ok_iff`: what a lookup and an inflection go through.
* `Session.inflect_misses_bracketed`: the inflected lexemes against those of a lookup.
-/

namespace Etymon

/-! ## Lists without repetitions -/

section

variable {α β : Type} [DecidableEq α] [DecidableEq β]

theorem distinct_append (as bs : List α) :
    distinct (as ++ bs) = distinct as ++ (distinct bs).filter (· ∉ as) := by
  induction as with
  | nil => simp [distinct]
  | cons a as ih =>
    rw [List.cons_append, distinct, ih, distinct, List.filter_append, List.filter_filter,
      List.cons_append]
    simp only [List.mem_cons, not_or, Bool.decide_and]

theorem distinct_eq_self {as : List α} (h : as.Nodup) : distinct as = as := by
  induction as with
  | nil => rfl
  | cons a as ih =>
    obtain ⟨ha, has⟩ := List.nodup_cons.1 h
    rw [distinct, ih has, List.filter_eq_self.2]
    intro b hb
    simpa using fun heq : b = a => ha (heq ▸ hb)

/-- Repetitions can be left out of the pieces of a list first. -/
theorem distinct_flatMap_distinct {γ : Type} (f : γ → List α) (pieces : List γ) :
    distinct (pieces.flatMap fun piece => distinct (f piece)) = distinct (pieces.flatMap f) := by
  induction pieces with
  | nil => rfl
  | cons piece pieces ih =>
    rw [List.flatMap_cons, List.flatMap_cons, distinct_append, distinct_append, ih,
      distinct_eq_self (nodup_distinct _)]
    simp only [mem_distinct]

/-- A selection that tells items apart commutes with leaving out repetitions. -/
theorem filterMap_distinct {f : α → Option β} (hf : ∀ a a' b, f a = some b → f a' = some b → a = a')
    (as : List α) : (distinct as).filterMap f = distinct (as.filterMap f) := by
  induction as with
  | nil => rfl
  | cons a as ih =>
    rw [distinct, List.filterMap_cons, List.filterMap_cons]
    have hrest : ∀ rest : List α, (rest.filter (· ≠ a)).filterMap f =
        (rest.filterMap f).filter fun b => f a ≠ some b := by
      intro rest
      induction rest with
      | nil => rfl
      | cons c rest ih =>
        cases hc : f c with
        | none => by_cases h : c = a <;> simp_all
        | some b =>
          by_cases h : c = a
          · simp_all
          · have hne : f a ≠ some b := fun heq => h (hf c a b hc heq)
            simp_all
    rw [hrest, ih]
    cases ha : f a with
    | none => simp
    | some b =>
      rw [distinct]
      simp [eq_comm]

end

/-! ## What a word names -/

def Named.lexeme? : Named → Option Lexeme
  | .lexeme l => some l
  | _ => none

theorem Named.eq_of_lexeme? (a a' : Named) (l : Lexeme) (h : a.lexeme? = some l)
    (h' : a'.lexeme? = some l) : a = a' := by
  cases a <;> cases a' <;> simp_all [Named.lexeme?]

namespace Word

/-- The lexemes that a word names in reading order, inside of brackets as well. -/
def lexemes : Word → List Lexeme
  | morpheme _ _ => []
  | lexeme _ l => [l]
  | bracket _ w => w.lexemes
  | join h _ t => h.lexemes ++ t.lexemes

/-- The lexemes inside of brackets, in reading order. -/
def bracketed : Word → List Lexeme
  | morpheme _ _ => []
  | lexeme _ _ => []
  | bracket _ w => w.lexemes
  | join h _ t => h.bracketed ++ t.bracketed

variable {w : Word} {l : Lexeme}

theorem lexemesOf_join (h t : Word) (j : Joiner) :
    Session.lexemesOf (.join h j t) = Session.lexemesOf h ++ Session.lexemesOf t :=
  List.filterMap_append

theorem mem_lexemes_iff : l ∈ w.lexemes ↔ l ∈ Session.lexemesOf w ∨ l ∈ w.bracketed := by
  induction w with
  | morpheme f m => simp [lexemes, bracketed, Session.lexemesOf, parts]
  | lexeme f l => simp [lexemes, bracketed, Session.lexemesOf, parts]
  | bracket f w => simp [lexemes, bracketed, Session.lexemesOf, parts]
  | join h j t ihHead ihTail =>
    rw [lexemes, bracketed, lexemesOf_join]
    simp only [List.mem_append, ihHead, ihTail]
    exact or_or_or_comm

theorem lexemes_eq_of_bracketed (h : w.bracketed = []) : w.lexemes = Session.lexemesOf w := by
  induction w with
  | morpheme f m => rfl
  | lexeme f l => rfl
  | bracket f w => exact h
  | join head j tail ihHead ihTail =>
    obtain ⟨hhead, htail⟩ := List.append_eq_nil_iff.1 h
    rw [lexemes, lexemesOf_join, ihHead hhead, ihTail htail]

end Word

/-! ## What is described -/

/-- The lexemes among what is described. -/
def lexemesAmong (items : List (Named × String)) : List Lexeme :=
  (items.map Prod.fst).filterMap Named.lexeme?

@[simp] theorem lexemesAmong_append (items items' : List (Named × String)) :
    lexemesAmong (items ++ items') = lexemesAmong items ++ lexemesAmong items' := by
  simp [lexemesAmong]

theorem lexemesAmong_firstOfEach (items : List (Named × String)) :
    lexemesAmong (firstOfEach items) = distinct (lexemesAmong items) := by
  rw [lexemesAmong, map_fst_firstOfEach, filterMap_distinct Named.eq_of_lexeme?]
  rfl

theorem lexemesAmong_flatten (pieces : List (List (Named × String))) :
    lexemesAmong pieces.flatten = pieces.flatMap lexemesAmong := by
  induction pieces with
  | nil => rfl
  | cons piece pieces ih => rw [List.flatten_cons, lexemesAmong_append, ih, List.flatMap_cons]

namespace Lexicon

variable {lex : Lexicon} {scope : Scope} {w : Word} {items : List (Named × String)}

theorem lexemesAmong_affixes {f : String → Affix} {names : List String}
    (h : (names.mapM fun name => lex.describeAffix scope (f name)) = .ok items) :
    lexemesAmong items = [] := by
  rw [mapM_eq_ok_iff] at h
  induction h with
  | nil => rfl
  | cons hname _ ih =>
    obtain ⟨_, -, ⟨⟩⟩ := bind_eq_ok_iff.1 hname
    exact ih

/-- The affixes around a stem name no lexemes. -/
theorem exists_of_describeFrame {f : Frame} {stem : Except Error (List (Named × String))}
    (h : lex.describeFrame scope f stem = .ok items) :
    ∃ inside, stem = .ok inside ∧ lexemesAmong items = lexemesAmong inside := by
  obtain ⟨before, hbefore, h⟩ := bind_eq_ok_iff.1 h
  obtain ⟨inside, hinside, h⟩ := bind_eq_ok_iff.1 h
  obtain ⟨after, hafter, ⟨⟩⟩ := bind_eq_ok_iff.1 h
  exact ⟨inside, hinside,
    by simp [lexemesAmong_affixes hbefore, lexemesAmong_affixes hafter]⟩

theorem lexemes_of_describeAll (h : lex.describeAll scope w = .ok items) :
    lexemesAmong items = w.lexemes := by
  induction w generalizing items with
  | morpheme f m =>
    obtain ⟨_, ⟨⟩, hitems⟩ := exists_of_describeFrame h
    exact hitems
  | lexeme f l =>
    obtain ⟨_, hinside, hitems⟩ := exists_of_describeFrame h
    obtain ⟨_, -, ⟨⟩⟩ := bind_eq_ok_iff.1 hinside
    exact hitems
  | bracket f w ih =>
    obtain ⟨_, hinside, hitems⟩ := exists_of_describeFrame h
    exact hitems.trans (ih hinside)
  | join h j t ihHead ihTail =>
    obtain ⟨_, hhead, h⟩ := bind_eq_ok_iff.1 h
    obtain ⟨_, htail, ⟨⟩⟩ := bind_eq_ok_iff.1 h
    rw [lexemesAmong_append, ihHead hhead, ihTail htail, Word.lexemes]

/-- The lexemes that are described are those that the word names, each once. -/
theorem lexemes_of_describe (h : lex.describe w scope = .ok items) :
    lexemesAmong items = distinct w.lexemes := by
  obtain ⟨_, hall, ⟨⟩⟩ := bind_eq_ok_iff.1 h
  rw [lexemesAmong_firstOfEach, lexemes_of_describeAll hall]

end Lexicon

/-! ## Looking up and inflecting -/

namespace Session

variable {σ : Type} {engine : Engine σ} {files : FileStore} {text : String} {s s' : Session σ}
  {sentence : Sentence}

theorem map_fst_deal {α : Type} (patterns : List (Lexeme × List Frame)) (results : List α) :
    (deal patterns results).map Prod.fst = patterns.map Prod.fst := by
  induction patterns generalizing results with
  | nil => rfl
  | cons pattern rest ih => rw [deal, List.map_cons, List.map_cons, ih]

/-- A lookup reads the sentence and describes its words in the current lexicon. -/
theorem lookup_eq_ok_iff {items : List (Named × String)} :
    (lookup files text).result s = (.ok items, s') ↔ ∃ sentence lex found,
      Sentence.parse text = .ok sentence ∧ (currentLexicon files).result s = (.ok lex, s') ∧
      (sentence.words.mapM fun w =>
        lex.describe w (sentence.scopeOr s.metadata.defaultScope)) = .ok found ∧
      items = firstOfEach found.flatten := by
  simp only [lookup, readSentence, scopeOf, Action.result_bind_eq_ok_iff,
    Action.result_ofExcept_eq_ok_iff, Action.result_bind_get, Action.result_pure, Prod.mk.injEq,
    Except.ok.injEq]
  constructor
  · rintro ⟨sentence, _, ⟨hparse, rfl⟩, _, _, ⟨rfl, rfl⟩, lex, _, hlex, found, _, ⟨hfound, rfl⟩, rfl,
      rfl⟩
    exact ⟨sentence, lex, found, hparse, hlex, hfound, rfl⟩
  · rintro ⟨sentence, lex, found, hparse, hlex, hfound, rfl⟩
    exact ⟨sentence, s, ⟨hparse, rfl⟩, _, s, ⟨rfl, rfl⟩, lex, s', hlex, found, s', ⟨hfound, rfl⟩, rfl,
      rfl⟩

/-- An inflection reads the sentence, makes the forms of its lexemes in the current lexicon, evolves all
of them in one call, and deals the results out. -/
theorem inflect_eq_ok_iff {found : List (Lexeme × List (Frame × Evolved))} :
    (inflect engine files text).result s = (.ok found, s') ↔
      ∃ sentence lex t inflections evolved evolver, Sentence.parse text = .ok sentence ∧
      (currentLexicon files).result s = (.ok lex, t) ∧
      (distinct (sentence.words.flatMap lexemesOf)).mapM
        (inflectionsOf lex (sentence.scopeOr s.metadata.defaultScope)) = .ok inflections ∧
      (Evolver.evolve engine files
        ((inflections.flatMap fun pair => pair.2.map Prod.snd).map .form)).result t.evolver =
          (.ok evolved, evolver) ∧
      s' = { t with evolver } ∧
      found = deal (inflections.map fun pair => (pair.1, pair.2.map Prod.fst)) evolved := by
  simp only [inflect, readSentence, scopeOf, onEvolver, Action.result_bind_eq_ok_iff,
    Action.result_ofExcept_eq_ok_iff, Action.result_bind_get, Action.result_pure, Action.result_part,
    Prod.mk.injEq, Except.ok.injEq]
  constructor
  · rintro ⟨sentence, _, ⟨hparse, rfl⟩, _, _, ⟨rfl, rfl⟩, lex, t, hlex, inflections, _,
      ⟨hinflections, rfl⟩, evolved, _, ⟨hevolved, rfl⟩, rfl, rfl⟩
    exact ⟨sentence, lex, _, inflections, evolved, _, hparse, hlex, hinflections,
      Prod.ext hevolved rfl, rfl, rfl⟩
  · rintro ⟨sentence, lex, t, inflections, evolved, evolver, hparse, hlex, hinflections, hevolved, rfl,
      rfl⟩
    exact ⟨sentence, s, ⟨hparse, rfl⟩, _, s, ⟨rfl, rfl⟩, lex, t, hlex, inflections, t,
      ⟨hinflections, rfl⟩, evolved, _, ⟨by rw [hevolved], by rw [hevolved]⟩, rfl, rfl⟩

theorem fst_of_inflectionsOf {lex : Lexicon} {scope : Scope} {l : Lexeme}
    {pair : Lexeme × List (Frame × Form)} (h : inflectionsOf lex scope l = .ok pair) : pair.1 = l := by
  obtain ⟨_, -, h⟩ := bind_eq_ok_iff.1 h
  obtain ⟨_, -, ⟨⟩⟩ := bind_eq_ok_iff.1 h
  rfl

/-- The lexemes that are inflected are those outside of brackets, each once. -/
theorem lexemes_of_inflect {found : List (Lexeme × List (Frame × Evolved))}
    (h : ((inflect engine files text).result s).1 = .ok found)
    (hparse : Sentence.parse text = .ok sentence) :
    found.map Prod.fst = distinct (sentence.words.flatMap lexemesOf) := by
  obtain ⟨sentence', lex, t, inflections, evolved, evolver, hparse', -, hinflections, -, -, rfl⟩ :=
    inflect_eq_ok_iff.1 (Prod.ext h rfl)
  cases hparse.symm.trans hparse'
  have hfirst := map_eq_map_of_forall₂ (f := id) (g := Prod.fst) (mapM_eq_ok_iff.1 hinflections)
    fun _ _ h => (fst_of_inflectionsOf h).symm
  rw [map_fst_deal, List.map_map]
  exact hfirst.symm.trans (List.map_id _)

/-- The lexemes that are looked up are all that the sentence names, each once. -/
theorem lexemes_of_lookup {items : List (Named × String)}
    (h : ((lookup files text).result s).1 = .ok items) (hparse : Sentence.parse text = .ok sentence) :
    lexemesAmong items = distinct (sentence.words.flatMap Word.lexemes) := by
  obtain ⟨sentence', lex, found, hparse', -, hfound, rfl⟩ := lookup_eq_ok_iff.1 (Prod.ext h rfl)
  cases hparse.symm.trans hparse'
  rw [lexemesAmong_firstOfEach, lexemesAmong_flatten, ← distinct_flatMap_distinct Word.lexemes]
  rw [List.flatMap_def, List.flatMap_def]
  have heach := map_eq_map_of_forall₂ (f := fun w => distinct w.lexemes) (g := lexemesAmong)
    (mapM_eq_ok_iff.1 hfound) fun _ _ h => (Lexicon.lexemes_of_describe h).symm
  rw [heach]

/-- Of the lexemes that a lookup of a text tells of, an inflection of the text has those that stand
outside of brackets: both list theirs in reading order and each once, they list the same lexemes if
each one in brackets stands outside as well, and lists that are equal if brackets hold none. -/
theorem inflect_misses_bracketed {files' : FileStore} {t : Session σ}
    {found : List (Lexeme × List (Frame × Evolved))} {items : List (Named × String)}
    (hinflect : ((inflect engine files text).result s).1 = .ok found)
    (hlookup : ((lookup files' text).result t).1 = .ok items) :
    ∃ sentence, Sentence.parse text = .ok sentence ∧
      found.map Prod.fst = distinct (sentence.words.flatMap lexemesOf) ∧
      lexemesAmong items = distinct (sentence.words.flatMap Word.lexemes) ∧
      (∀ l, l ∈ lexemesAmong items ↔
        l ∈ found.map Prod.fst ∨ ∃ w ∈ sentence.words, l ∈ w.bracketed) ∧
      ((∀ l, l ∈ found.map Prod.fst ↔ l ∈ lexemesAmong items) ↔
        ∀ w ∈ sentence.words, ∀ l ∈ w.bracketed, ∃ w' ∈ sentence.words, l ∈ lexemesOf w') ∧
      ((∀ w ∈ sentence.words, w.bracketed = []) → found.map Prod.fst = lexemesAmong items) := by
  obtain ⟨sentence, -, -, hparse, -⟩ := lookup_eq_ok_iff.1 (Prod.ext hlookup rfl)
  have hfound := lexemes_of_inflect hinflect hparse
  have hitems := lexemes_of_lookup hlookup hparse
  have hmem : ∀ l, l ∈ lexemesAmong items ↔
      l ∈ found.map Prod.fst ∨ ∃ w ∈ sentence.words, l ∈ w.bracketed := by
    intro l
    rw [hfound, hitems, mem_distinct, mem_distinct, List.mem_flatMap, List.mem_flatMap,
      ← exists_or]
    simp only [Word.mem_lexemes_iff, and_or_left]
  refine ⟨sentence, hparse, hfound, hitems, hmem, ?_, fun hnone => ?_⟩
  · have hinside : ∀ l, l ∈ found.map Prod.fst ↔ ∃ w ∈ sentence.words, l ∈ lexemesOf w := by
      intro l
      rw [hfound, mem_distinct, List.mem_flatMap]
    simp only [hmem, ← hinside]
    constructor
    · intro hsame w hw l hl
      exact (hsame l).2 (.inr ⟨w, hw, hl⟩)
    · intro hoften l
      refine ⟨.inl, fun hl => ?_⟩
      rcases hl with hl | ⟨w, hw, hl⟩
      · exact hl
      · exact hoften w hw l hl
  · rw [hfound, hitems]
    congr 1
    exact List.flatMap_congr fun w hw => (Word.lexemes_eq_of_bracketed (hnone w hw)).symm

/-! ### A stone in brackets -/

/-- A project whose lexicon is one file. -/
def lexiconFiles (text : String) : FileStore where
  workDir := ["work"]
  nodes := [(["work"], .directory 0), (["work", "changes.lsc"], .file ⟨voicingText, 0, false⟩),
    (["work", "lexicon.pycl"], .file ⟨text, 0, false⟩)]
  clock := 1

/-- The project as it is opened; input that names no scope belongs to the given one. -/
def lexiconDesk (text : String) (scope : Option String) : Desk (Option String) :=
  ⟨lexiconFiles text, .opened (lexiconFiles text) ⟨⟨""⟩⟩ ⟨"", "", true, scope, none⟩ none⟩

def quarry : Desk (Option String) :=
  lexiconDesk "affix .PL *li plural\nentry <rock> *ata (n.) a rock\nentry <stone> *ota (n.) a stone\n" none

def rockAndStones : String :=
  "<rock> \"<stone>\".PL"

set_option maxRecDepth 100000 in
/-- The plural of a bracketed stone: a lookup tells of the stone, and only the rock is inflected. -/
theorem inflect_misses_bracketed_stone : ∃ s,
    (inflect (.ofLaw voicing ⟨"changes.lsc"⟩) quarry.files rockAndStones).result quarry.session =
      (.ok [(⟨"rock", none⟩, [(.empty, ⟨"ata", "ada", "ada"⟩)])], s) ∧
    ((lookup quarry.files rockAndStones).result s).1 =
      .ok [(.lexeme ⟨"rock", none⟩, "(n.) a rock"), (.lexeme ⟨"stone", none⟩, "(n.) a stone"),
        (.affix (.suf "PL"), "plural")] ∧
    ∃ sentence, Sentence.parse rockAndStones = .ok sentence ∧
      ∃ w ∈ sentence.words, ⟨"stone", none⟩ ∈ w.bracketed := by
  obtain ⟨hinflect, hlookup⟩ :
      ((inflect (.ofLaw voicing ⟨"changes.lsc"⟩) quarry.files rockAndStones).result
        quarry.session).1.toOption = some [(⟨"rock", none⟩, [(.empty, ⟨"ata", "ada", "ada"⟩)])] ∧
      ((lookup quarry.files rockAndStones).result
        ((inflect (.ofLaw voicing ⟨"changes.lsc"⟩) quarry.files rockAndStones).result
          quarry.session).2).1.toOption =
        some [(.lexeme ⟨"rock", none⟩, "(n.) a rock"), (.lexeme ⟨"stone", none⟩, "(n.) a stone"),
          (.affix (.suf "PL"), "plural")] := by
    decide +kernel
  rw [toOption_eq_some_iff] at hinflect hlookup
  obtain ⟨sentence, hparse, -, -, hmem, -⟩ := inflect_misses_bracketed hinflect hlookup
  have hstone := (hmem ⟨"stone", none⟩).1 (by decide)
  exact ⟨_, Prod.ext hinflect rfl, hlookup, sentence, hparse, by simpa using hstone⟩

end Session

end Etymon
