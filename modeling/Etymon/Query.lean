import Etymon.Error
import Etymon.RuleOrder

/-!
# Queries

A query asks the sound-change engine for one string: a text valid at some era, to be taken through
the rules from there up to another era. A compound's text is assembled from its two sides; a side
that lives at another era has to be evolved first.

## Main definitions

* `Query`: a leaf with its form, or a node over two queries, each with its window.
* `Query.ofForm`: the query of an arranged form.
* `Query.layer`: how many rounds of evolution have to come before.
* `assemble`: the text of a query, given the evolved texts of its dependencies.
* `combine`: two texts joined, with the primary stress of one side.
-/

namespace Etymon

/-- The window runs from the era `start` up to the era `stop`; without a start it begins before the
first rule, and without a stop it ends behind the last. -/
inductive Query where
  | leaf (form : String) (start stop : Option Era)
  | node (stress : Stress) (head tail : Query) (start stop : Option Era)
  deriving DecidableEq, Repr, Inhabited

namespace Query

def start : Query → Option Era
  | leaf _ start _ => start
  | node _ _ _ start _ => start

def stop : Query → Option Era
  | leaf _ _ stop => stop
  | node _ _ _ _ stop => stop

def window (q : Query) : Option Era × Option Era :=
  (q.start, q.stop)

def withStop (stop : Option Era) : Query → Query
  | leaf form start _ => leaf form start stop
  | node stress head tail start _ => node stress head tail start stop

@[simp] theorem start_withStop (stop : Option Era) (q : Query) :
    (q.withStop stop).start = q.start := by
  cases q <;> rfl

@[simp] theorem stop_withStop (stop : Option Era) (q : Query) :
    (q.withStop stop).stop = stop := by
  cases q <;> rfl

/-- Whether the engine has rules to apply. -/
def needsWork (q : Query) : Bool :=
  q.start != q.stop

/-- Whether a side lives at another era, so that its evolved text is needed. -/
def isDependent : Query → Bool
  | leaf .. => false
  | node _ head tail start _ => head.start != start || tail.start != start

/-- A leaf is in layer zero; a node is with the higher of its sides, or one above it when it needs a
side's evolved text. -/
def layer : Query → Nat
  | leaf .. => 0
  | node stress head tail start stop =>
    max head.layer tail.layer + (node stress head tail start stop).isDependent.toNat

/-- Neither side of a joiner may start after it. -/
def checkAffixation (order : RuleOrder) (joiner : Option Era) (side : Query) : Except Error Unit :=
  if order.rank joiner < order.rank side.start then .error (.badAffixation joiner side.start)
  else .ok ()

/-- Both sides of a joiner that names an era go up to it. -/
def upTo (joiner : Option Era) (side : Query) : Query :=
  match joiner with
  | none => side
  | some era => side.withStop (some era)

/-- The query of a form; a join starts at the era of its joiner. -/
def ofForm (order : RuleOrder) : Form → Except Error Query
  | .leaf m => .ok (leaf m.form m.era none)
  | .join h j t => do
    let head ← ofForm order h
    let tail ← ofForm order t
    checkAffixation order j.era head
    checkAffixation order j.era tail
    return node j.stress (upTo j.era head) (upTo j.era tail) j.era none

end Query

/-! ## Assembling -/

/-- The mark of primary stress. -/
def primaryStress : Char := 'ˈ'

def unstressed (s : String) : String :=
  String.ofList (s.toList.filter (· != primaryStress))

/-- Joins two texts; only the stressed side keeps its marks of primary stress. A dot stands between
them when syllables are marked. -/
def combine (stress : Stress) (head tail : String) (syllables : Bool) : String :=
  let dot := if syllables then "." else ""
  match stress with
  | .head => head ++ dot ++ unstressed tail
  | .tail => unstressed head ++ dot ++ tail

/-- The text of a query. A side that starts where the query does is assembled in place; any other is
looked up in `evolved`. -/
def assemble (evolved : Query → Option String) (syllables : Bool) : Query → Except Error String
  | .leaf form _ _ => .ok form
  | .node stress head tail start _ => do
    let headText ← if head.start = start then assemble evolved syllables head
      else lookup head
    let tailText ← if tail.start = start then assemble evolved syllables tail
      else lookup tail
    return combine stress headText tailText syllables
where
  /-- The evolved text of a dependency. -/
  lookup (side : Query) : Except Error String :=
    match evolved side with
    | some text => .ok text
    | none => .error (.cache (.dependency side.start))

end Etymon
