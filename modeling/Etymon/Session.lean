import Etymon.Evolver
import Etymon.Lexicon.Description
import Etymon.Lexicon.Loading
import Etymon.Lexicon.Resolution
import Etymon.Project.Metadata
import Etymon.Reading.Sentence

/-!
# Sessions

A session is an open project. Its lexicon is loaded when it is needed, and again when the rule file or
one of the files it was read from has changed; text typed by the author is read, resolved and evolved
against it.

## Main definitions

* `Session`: a project with its cached lexicon and its evolver.
* `Session.resolve`, `Session.evolve`, `Session.trace`: the forms of a sentence, and what becomes of
  them.
* `Session.lookup`, `Session.entries`: descriptions of what a sentence names, or of every entry.
* `Session.inflect`: every inflection of every lexeme that stands in a sentence outside of brackets.
-/

namespace Etymon

structure Session (σ : Type) where
  project : Project
  metadata : Metadata
  lexicon : PathCache Lexicon
  evolver : Evolver σ

namespace Session

variable {σ : Type}

def opened (files : FileStore) (project : Project) (metadata : Metadata) (engine : σ) :
    Session σ where
  project
  metadata
  lexicon := none
  evolver := .opened files project.changesPath project.cacheDir engine metadata.syllables

/-! ## The lexicon -/

/-- The lexicon of a project as its files are now, with the files it depends on. -/
def loadLexicon (files : FileStore) (project : Project) : Except Error (Lexicon × List Path) := do
  let order ← RuleOrder.load files project.changesPath
  let lex ← Lexicon.load files project.lexiconPath
  return (lex.withOrder order, lex.sources ++ [project.changesPath])

def currentLexicon (files : FileStore) : Action (Session σ) Lexicon := do
  let s ← get
  let (lex, cache) ← s.lexicon.getTracked (fun _ => files)
    (Action.ofExcept (loadLexicon files s.project))
  modify fun s => { s with lexicon := cache }
  return lex

def readSentence (text : String) : Action (Session σ) Sentence :=
  Action.ofExcept (Sentence.parse text)

/-- The scope that a sentence is looked up in. -/
def scopeOf (sentence : Sentence) : Action (Session σ) Scope := do
  return sentence.scopeOr (← get).metadata.defaultScope

/-! ## Evolving sentences -/

def resolve (files : FileStore) (text : String) : Action (Session σ) (List Form) := do
  let sentence ← readSentence text
  let lex ← currentLexicon files
  Action.ofExcept (lex.resolveSentence sentence (← get).metadata.defaultScope)

def onEvolver {α : Type} (act : Action (Evolver σ) α) : Action (Session σ) α :=
  .part Session.evolver (fun evolver s => { s with evolver }) act

def evolve (engine : Engine σ) (files : FileStore) (text : String) :
    Action (Session σ) (List Evolved) := do
  let forms ← resolve files text
  onEvolver (Evolver.evolve engine files (forms.map .form))

def trace (engine : Engine σ) (files : FileStore) (text : String) :
    Action (Session σ) (List (Evolved × Trace)) := do
  let forms ← resolve files text
  onEvolver (Evolver.trace engine files (forms.map .form))

/-! ## Looking things up -/

/-- Everything that a sentence names, once each, with its description. -/
def lookup (files : FileStore) (text : String) : Action (Session σ) (List (Named × String)) := do
  let sentence ← readSentence text
  let scope ← scopeOf sentence
  let lex ← currentLexicon files
  let found ← Action.ofExcept (sentence.words.mapM fun w => lex.describe w scope)
  return firstOfEach found.flatten

/-- How an entry is named from the root scope. -/
def nameOf (scope : Scope) (e : Entry) : Lexeme :=
  ⟨e.lexeme.name, if scope.isRoot then none else some scope⟩

/-- Every entry in the order of declaration, with its description. -/
def entries (files : FileStore) : Action (Session σ) (List (Lexeme × String)) := do
  let lex ← currentLexicon files
  return lex.entries.map fun (key, e) => (nameOf key.1 e, e.description)

/-! ## Inflections -/

/-- The lexemes among the parts of a word. -/
def lexemesOf (w : Word) : List Lexeme :=
  w.parts.filterMap fun part =>
    match part with
    | .lexeme _ l => some l
    | _ => none

/-- Deals results out to the patterns of one lexeme after another. -/
def deal {α : Type} : List (Lexeme × List Frame) → List α → List (Lexeme × List (Frame × α))
  | [], _ => []
  | (l, patterns) :: rest, results =>
    (l, patterns.zip results) :: deal rest (results.drop patterns.length)

/-- The inflections of a lexeme that a sentence of the given scope names. -/
def inflectionsOf (lex : Lexicon) (scope : Scope) (l : Lexeme) :
    Except Error (Lexeme × List (Frame × Form)) := do
  let scope := l.scope.getD scope
  let (_, entry) ← lex.findEntry l.name scope
  return (l, ← lex.inflections entry scope)

/-- The evolved inflections of each lexeme of a sentence. -/
def inflect (engine : Engine σ) (files : FileStore) (text : String) :
    Action (Session σ) (List (Lexeme × List (Frame × Evolved))) := do
  let sentence ← readSentence text
  let scope ← scopeOf sentence
  let lex ← currentLexicon files
  let lexemes := distinct (sentence.words.flatMap lexemesOf)
  let found ← Action.ofExcept (lexemes.mapM (inflectionsOf lex scope))
  let forms := found.flatMap fun (_, inflections) => inflections.map Prod.snd
  let evolved ← onEvolver (Evolver.evolve engine files (forms.map .form))
  return deal (found.map fun (l, inflections) => (l, inflections.map Prod.fst)) evolved

/-! ## Saving -/

def flush (files : FileStore) (s : Session σ) : Except Error Unit × FileStore × Session σ :=
  let (outcome, files, evolver) := s.evolver.flush files
  (outcome, files, { s with evolver })

/-- Saves what can be saved when the session is no longer needed. -/
def close (files : FileStore) (s : Session σ) : FileStore :=
  s.evolver.close files

end Session

end Etymon
