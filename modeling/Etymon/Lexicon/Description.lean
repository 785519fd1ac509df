import Etymon.Keys
import Etymon.Lexicon

/-!
# Describing words

Everything that a word names is described in reading order: lexemes by part of speech and definition,
affixes by their description, morphemes by their form.

## Main definitions

* `Named`: what a word can name.
* `Lexicon.describe`: what a word names, each thing once, with its description.
-/

namespace Etymon

inductive Named where
  | lexeme (l : Lexeme)
  | affix (a : Affix)
  | morpheme (m : Morpheme)
  deriving DecidableEq, Repr

def Named.render : Named → String
  | lexeme l => l.render
  | affix a => a.render
  | morpheme m => m.render

namespace Lexicon

def describeAffix (lex : Lexicon) (scope : Scope) (a : Affix) : Except Error (Named × String) := do
  let (_, definition) ← lex.findAffix a scope
  return (.affix a, definition.description)

/-- The descriptions of the affixes around those of a stem. -/
def describeFrame (lex : Lexicon) (scope : Scope) (f : Frame)
    (stem : Except Error (List (Named × String))) : Except Error (List (Named × String)) := do
  let before ← f.prefixes.reverse.mapM fun name => lex.describeAffix scope (.pre name)
  let inside ← stem
  let after ← f.suffixes.mapM fun name => lex.describeAffix scope (.suf name)
  return before ++ inside ++ after

/-- Everything a word names, in reading order and as often as it is named. -/
def describeAll (lex : Lexicon) (scope : Scope) : Word → Except Error (List (Named × String))
  | .morpheme f m => lex.describeFrame scope f (.ok [(.morpheme m, m.form)])
  | .lexeme f l => lex.describeFrame scope f do
      let (_, entry) ← lex.findEntry l.name (l.scope.getD scope)
      return [(.lexeme l, entry.description)]
  | .bracket f w => lex.describeFrame scope f (lex.describeAll scope w)
  | .join h _ t => do
    let head ← lex.describeAll scope h
    let tail ← lex.describeAll scope t
    return head ++ tail

def describe (lex : Lexicon) (w : Word) (scope : Scope) : Except Error (List (Named × String)) := do
  return firstOfEach (← lex.describeAll scope w)

end Lexicon

end Etymon
