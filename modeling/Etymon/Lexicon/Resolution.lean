import Etymon.Lexicon

/-!
# Resolving words

A word is expanded to the morphemes it is made of. A lexeme stands for the form of its entry, an
affix for its own form, each expanded in the scope where it is defined. A definition that is reached
inside its own expansion is cyclic; definitions that are being expanded are known by their keys.

## Main definitions

* `Expansion`: what the references in a word stand for.
* `Word.expand`: a word with its references expanded.
* `Lexicon.entryKey`, `Lexicon.affixKey`: the texts that definitions are known by.
* `Lexicon.resolve`: a word's form in a scope.
* `Lexicon.inflections`: the forms of an entry, one for each pattern of its template.
-/

namespace Etymon

/-- What the eras, lexemes and affixes of a word mean where it stands. -/
structure Expansion where
  checkEra : Option Era → Except Error Unit
  lexeme : Lexeme → Except Error Form
  affix : Affix → Except Error (AffixDefinition × Form)

namespace Expansion

/-- Joins a suffix behind a form; a stressed suffix takes the stress. -/
def addSuffix (x : Expansion) (form : Form) (name : String) : Except Error Form := do
  let (definition, affixForm) ← x.affix (.suf name)
  let stress := if definition.stressed then .tail else .head
  return .join form ⟨stress, definition.era⟩ affixForm

/-- Joins a prefix in front of a form; a stressed prefix takes the stress. -/
def addPrefix (x : Expansion) (form : Form) (name : String) : Except Error Form := do
  let (definition, affixForm) ← x.affix (.pre name)
  let stress := if definition.stressed then .head else .tail
  return .join affixForm ⟨stress, definition.era⟩ form

/-- Suffixes bind before prefixes, inner affixes before outer ones. -/
def frame (x : Expansion) (f : Frame) (form : Form) : Except Error Form := do
  let form ← f.suffixes.foldlM x.addSuffix form
  f.prefixes.foldlM x.addPrefix form

end Expansion

def Word.expand (x : Expansion) : Word → Except Error Form
  | .morpheme f m => do
    x.checkEra m.era
    x.frame f (.leaf m)
  | .lexeme f l => do x.frame f (← x.lexeme l)
  | .bracket f w => do x.frame f (← w.expand x)
  | .join h j t => do
    x.checkEra j.era
    let head ← h.expand x
    let tail ← t.expand x
    return .join head j tail

namespace Lexicon

/-- The key of an entry is written like a lexeme that names the scope it stands in. -/
def entryKey (name : String) (owner : Scope) : String :=
  "<" ++ name ++ ">" ++ owner.render

def affixKey (a : Affix) (owner : Scope) : String :=
  a.render ++ owner.render

/-- An era must be declared by the rule order, if there is one. -/
def checkEra (lex : Lexicon) : Option Era → Except Error Unit
  | none => .ok ()
  | some era =>
    match lex.order with
    | none => .ok ()
    | some order => if order.contains era then .ok () else .error (.unknownRule era)

/-- Goes into a definition unless its key is that of one that is being expanded. -/
def enter {α : Type} (visiting : List String) (key name : String)
    (expand : List String → Except Error α) : Except Error α :=
  if visiting.contains key then .error (.cyclicDefinition name) else expand (key :: visiting)

theorem enter_eq_ok_iff {α : Type} {visiting : List String} {key name : String}
    {expand : List String → Except Error α} {a : α} :
    enter visiting key name expand = .ok a ↔ key ∉ visiting ∧ expand (key :: visiting) = .ok a := by
  by_cases h : key ∈ visiting <;> simp [enter, h]

/-- The form of a lexeme; `resolve` expands its entry's word. -/
def lexemeForm (lex : Lexicon) (resolve : List String → Scope → Word → Except Error Form)
    (visiting : List String) (scope : Scope) (l : Lexeme) : Except Error Form := do
  let (owner, entry) ← lex.findEntry l.name (l.scope.getD scope)
  enter visiting (entryKey l.name owner) l.render fun inside => resolve inside owner entry.form

/-- The forms of the sources of an affix, joined from left to right. -/
def joinSources (form : Lexeme → Except Error Form) (affix : Affix) :
    List Lexeme → Except Error Form
  | [] => .error (.formlessAffix affix)
  | first :: rest => do
    rest.foldlM (fun joined l => return .join joined ⟨.head, none⟩ (← form l)) (← form first)

/-- The form that an affix stands for: that of its own word, of the affixes it puts around its only
source, or of its sources joined. -/
def ownForm (lex : Lexicon) (resolve : List String → Scope → Word → Except Error Form)
    (visiting : List String) (owner : Scope) (a : Affix) (definition : AffixDefinition) :
    Except Error Form :=
  match definition.form, definition.sources with
  | some (.word w), _ => resolve visiting owner w
  | some (.pattern f), [source] => resolve visiting owner (.bracket f (.ofLexeme source))
  | some (.pattern _), sources => .error (.variableSources a sources.length)
  | none, sources => joinSources (lex.lexemeForm resolve visiting owner) a sources

/-- The definition of an affix with the form that it stands for. -/
def affixForm (lex : Lexicon) (resolve : List String → Scope → Word → Except Error Form)
    (visiting : List String) (scope : Scope) (a : Affix) :
    Except Error (AffixDefinition × Form) := do
  let (owner, definition) ← lex.findAffix a scope
  lex.checkEra definition.era
  let form ← enter visiting (affixKey a owner) a.render fun inside =>
    lex.ownForm resolve inside owner a definition
  return (definition, form)

/-- The form of a word while the definitions with the keys in `visiting` are being expanded. These keys
are pairwise different, so definitions nest no deeper than there are definitions. -/
def resolveWithin (lex : Lexicon) :
    Nat → List String → Scope → Word → Except Error Form
  | 0, _, _, w => .error (.cyclicDefinition w.render)
  | depth + 1, visiting, scope, w =>
    w.expand {
      checkEra := lex.checkEra
      lexeme := lex.lexemeForm (lex.resolveWithin depth) visiting scope
      affix := lex.affixForm (lex.resolveWithin depth) visiting scope }

def resolve (lex : Lexicon) (w : Word) (scope : Scope) : Except Error Form :=
  lex.resolveWithin (lex.entries.length + lex.affixes.length + 1) [] scope w

/-- The forms of a sentence's words; its own scope goes before the given one. -/
def resolveSentence (lex : Lexicon) (s : Sentence) (fallback : Scope) : Except Error (List Form) :=
  s.words.mapM fun w => lex.resolve w (s.scopeOr fallback)

/-- A word inside the affixes of a pattern, resolved. -/
def substitute (lex : Lexicon) (f : Frame) (w : Word) (scope : Scope) : Except Error Form :=
  lex.resolve (.bracket f w) scope

/-- Each pattern of an entry's template with the form it makes of the entry. -/
def inflections (lex : Lexicon) (e : Entry) (scope : Scope) : Except Error (List (Frame × Form)) := do
  let reference := Word.ofLexeme ⟨e.lexeme.name, some (e.lexeme.scope.getD scope)⟩
  (← lex.patterns e.template).mapM fun f => return (f, ← lex.substitute f reference scope)

end Lexicon

end Etymon
