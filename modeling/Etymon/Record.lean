import Etymon.Sentence

/-!
# Records

A lexicon file consists of records: templates of inflection, affixes, entries, and references to
other files.

## Main definitions

* `Entry`: a word of the lexicon.
* `AffixDefinition`: an affix with its form, its era and its sources.
* `Template`: a list of inflection patterns.
* `Record`: one logical line of a lexicon file.
-/

namespace Etymon

structure Entry where
  template : Option String
  lexeme : Lexeme
  tags : Tags
  form : Word
  partOfSpeech : String
  definition : String

/-- `(pos) definition`, or `(pos)` alone without a definition. -/
def Entry.description (e : Entry) : String :=
  if e.definition.isEmpty then "(" ++ e.partOfSpeech ++ ")"
  else "(" ++ e.partOfSpeech ++ ") " ++ e.definition

/-- What an affix looks like: a word of its own, or affixes around its source. -/
inductive AffixForm where
  | word (w : Word)
  | pattern (f : Frame)
  deriving DecidableEq, Repr

structure AffixDefinition where
  stressed : Bool
  affix : Affix
  tags : Tags
  era : Option Era
  form : Option AffixForm
  sources : List Lexeme
  description : String

structure Template where
  name : String
  tags : Tags
  patterns : List Frame

inductive Record where
  | template (t : Template)
  | affix (d : AffixDefinition)
  | entry (e : Entry)
  | lang (child parent : Scope) (path : Option String)
  | includes (path : String)

end Etymon
