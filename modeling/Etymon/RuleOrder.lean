import Etymon.Form
import Etymon.Text.Lines

/-!
# The order of rules

The file of sound changes is opaque but for its headers: a line that starts with a name and a colon
declares the next rule. The first header of a name fixes its place.

## Main definitions

* `RuleOrder`: the names of the rules, each once, in the order they apply.
* `RuleOrder.parse`: the order that a file of sound changes declares.
* `RuleOrder.rank`: the place of an era in the order.
-/

namespace Etymon

structure RuleOrder where
  names : List String
  nodup : names.Nodup
  deriving DecidableEq

namespace RuleOrder

instance : Inhabited RuleOrder := ⟨⟨[], .nil⟩⟩

/-- Adds a rule behind the others unless its name is taken. -/
def declare (order : RuleOrder) (name : String) : RuleOrder :=
  if h : name ∈ order.names then order
  else
    ⟨order.names ++ [name], by
      rw [List.nodup_append]
      exact ⟨order.nodup, by simp, fun a ha b hb heq => by simp_all⟩⟩

def isHeaderChar (c : Char) : Bool :=
  c.isAlphanum || c == '-'

/-- The name that a line declares. -/
def header? (line : List Char) : Option String :=
  match line.takeWhile isHeaderChar, line.dropWhile isHeaderChar with
  | [], _ => none
  | name, ':' :: _ => some (String.ofList name)
  | _, _ => none

def parse (text : String) : RuleOrder :=
  ((Text.lines text.toList).filterMap header?).foldl declare ⟨[], .nil⟩

def contains (order : RuleOrder) (era : Era) : Bool :=
  order.names.contains era.name

/-- No era comes before every rule, and so does an era the file does not declare. -/
def rank (order : RuleOrder) : Option Era → Nat
  | none => 0
  | some era =>
    match order.names.idxOf? era.name with
    | none => 0
    | some place => place + 1

@[simp] theorem rank_none (order : RuleOrder) : order.rank none = 0 := rfl

end RuleOrder

end Etymon
