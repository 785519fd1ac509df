/-!
# Forms

A form is what a word is made of before any sound change: proto-morphemes joined two by two, each
join marking which side keeps its stress and at which era it happened.

## Main definitions

* `Era`: a point in the order of sound changes, named by the rule that follows it.
* `Morpheme`: a proto-form, with the era it was born at.
* `Joiner`: the mark of a join.
* `Form`: a binary tree of morphemes and joiners.
* `Form.leaves`, `Form.eras`: the morphemes in reading order, and every era written in a form.
* `Form.render`: the written notation.
-/

namespace Etymon

/-- A point in the order of sound changes: the moment before the rule of this name. -/
structure Era where
  name : String
  deriving DecidableEq, Repr, Inhabited

def Era.render (e : Era) : String :=
  "@" ++ e.name

/-- The notation of an era that may be absent. -/
def renderEra : Option Era → String
  | none => ""
  | some e => e.render

@[simp] theorem renderEra_none : renderEra none = "" := rfl

@[simp] theorem renderEra_some (e : Era) : renderEra (some e) = "@" ++ e.name := rfl

/-- A proto-form; without an era it goes through every rule. -/
structure Morpheme where
  form : String
  era : Option Era
  deriving DecidableEq, Repr, Inhabited

def Morpheme.render (m : Morpheme) : String :=
  "*" ++ m.form ++ renderEra m.era

/-- The side of a join that keeps its primary stress. -/
inductive Stress where
  | head
  | tail
  deriving DecidableEq, Repr, Inhabited

def Stress.render : Stress → String
  | .head => "!+"
  | .tail => "+!"

structure Joiner where
  stress : Stress
  era : Option Era
  deriving DecidableEq, Repr, Inhabited

def Joiner.render (j : Joiner) : String :=
  j.stress.render ++ renderEra j.era

/-- Double quotes around a text that would otherwise be read together with its neighbours. -/
def quoteIf (needed : Bool) (s : String) : String :=
  if needed then "\"" ++ s ++ "\"" else s

@[simp] theorem quoteIf_true (s : String) : quoteIf true s = "\"" ++ s ++ "\"" := rfl

@[simp] theorem quoteIf_false (s : String) : quoteIf false s = s := rfl

inductive Form where
  | leaf (m : Morpheme)
  | join (head : Form) (joiner : Joiner) (tail : Form)
  deriving DecidableEq, Repr, Inhabited

namespace Form

def isJoin : Form → Bool
  | leaf _ => false
  | join .. => true

@[simp] theorem isJoin_leaf (m : Morpheme) : (leaf m).isJoin = false := rfl

@[simp] theorem isJoin_join (h : Form) (j : Joiner) (t : Form) : (join h j t).isJoin = true := rfl

/-- Both sides of a join are quoted when they are joins themselves. -/
def render : Form → String
  | leaf m => m.render
  | join h j t => quoteIf h.isJoin h.render ++ " " ++ j.render ++ " " ++ quoteIf t.isJoin t.render

/-- The morphemes in reading order. -/
def leaves : Form → List Morpheme
  | leaf m => [m]
  | join h _ t => h.leaves ++ t.leaves

/-- Every era written in a form, in reading order. -/
def eras : Form → List Era
  | leaf m => m.era.toList
  | join h j t => h.eras ++ j.era.toList ++ t.eras

@[simp] theorem leaves_leaf (m : Morpheme) : (leaf m).leaves = [m] := rfl

@[simp] theorem leaves_join (h : Form) (j : Joiner) (t : Form) :
    (join h j t).leaves = h.leaves ++ t.leaves := rfl

end Form

end Etymon
