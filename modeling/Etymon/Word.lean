import Etymon.Form

/-!
# Words

A word is written with morphemes, with references to lexicon entries, with affixes around them, and
with joins; it becomes a form once every reference is expanded.

## Main definitions

* `Scope`: a language variety; the empty name is the root scope.
* `Lexeme`: a reference to an entry.
* `Affix`: a named prefix or suffix.
* `Frame`: the affixes around a stem. With a placeholder for the stem it is an inflection pattern.
* `Word`: a stem in a frame, or a join of two words.
* `Word.render`: the written notation.
-/

namespace Etymon

structure Scope where
  name : String
  deriving DecidableEq, Repr, Inhabited

namespace Scope

def root : Scope := ⟨""⟩

def isRoot (s : Scope) : Bool :=
  s.name.isEmpty

def render (s : Scope) : String :=
  "%" ++ s.name

end Scope

/-- The notation of a scope that may be absent. -/
def renderScope : Option Scope → String
  | none => ""
  | some s => s.render

@[simp] theorem renderScope_none : renderScope none = "" := rfl

@[simp] theorem renderScope_some (s : Scope) : renderScope (some s) = "%" ++ s.name := rfl

structure Lexeme where
  name : String
  scope : Option Scope
  deriving DecidableEq, Repr, Inhabited

def Lexeme.render (l : Lexeme) : String :=
  "<" ++ l.name ++ ">" ++ renderScope l.scope

inductive Affix where
  | pre (name : String)
  | suf (name : String)
  deriving DecidableEq, Repr, Inhabited

namespace Affix

def name : Affix → String
  | pre n => n
  | suf n => n

/-- The dot stands on the side of the stem. -/
def render : Affix → String
  | pre n => n ++ "."
  | suf n => "." ++ n

end Affix

/-- The affixes around a stem, both lists innermost first: `A.B.$.C.D` has the prefixes `B`, `A` and
the suffixes `C`, `D`. -/
structure Frame where
  prefixes : List String
  suffixes : List String
  deriving DecidableEq, Repr, Inhabited

namespace Frame

def empty : Frame := ⟨[], []⟩

def isEmpty (f : Frame) : Bool :=
  f.prefixes.isEmpty && f.suffixes.isEmpty

@[simp] theorem isEmpty_empty : empty.isEmpty = true := rfl

theorem eq_empty_of_isEmpty {f : Frame} (h : f.isEmpty = true) : f = empty := by
  cases f with
  | mk prefixes suffixes => simp_all [isEmpty, empty]

/-- The prefixes as they are written, outermost first. -/
def renderPrefixes : List String → String
  | [] => ""
  | name :: outer => renderPrefixes outer ++ (Affix.pre name).render

def renderSuffixes : List String → String
  | [] => ""
  | name :: outer => (Affix.suf name).render ++ renderSuffixes outer

/-- A stem's notation inside its affixes. -/
def around (f : Frame) (stem : String) : String :=
  renderPrefixes f.prefixes ++ stem ++ renderSuffixes f.suffixes

/-- An inflection pattern is written with `$` in the place of the stem. -/
def render (f : Frame) : String :=
  f.around "$"

@[simp] theorem around_empty (stem : String) : empty.around stem = stem := by
  simp [around, empty, renderPrefixes, renderSuffixes]

end Frame

inductive Word where
  | morpheme (frame : Frame) (m : Morpheme)
  | lexeme (frame : Frame) (l : Lexeme)
  | bracket (frame : Frame) (inner : Word)
  | join (head : Word) (joiner : Joiner) (tail : Word)
  deriving DecidableEq, Repr, Inhabited

namespace Word

/-- A reference to an entry without affixes. -/
def ofLexeme (l : Lexeme) : Word :=
  lexeme .empty l

def isJoin : Word → Bool
  | join .. => true
  | _ => false

def render : Word → String
  | morpheme f m => f.around m.render
  | lexeme f l => f.around l.render
  | bracket f w => f.around (quoteIf w.isJoin w.render)
  | join h j t => quoteIf h.isJoin h.render ++ " " ++ j.render ++ " " ++ quoteIf t.isJoin t.render

/-- The parts between the joiners in reading order; brackets are not opened. -/
def parts : Word → List Word
  | join h _ t => h.parts ++ t.parts
  | w => [w]

end Word

end Etymon
