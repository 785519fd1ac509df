import Etymon.Error
import Etymon.Record
import Etymon.RuleOrder

/-!
# Lexicons

A lexicon holds entries and affixes by scope, templates, and the parent of each scope. A name is
looked up in a scope, then in its ancestors, then in the root scope.

## Main definitions

* `Lexicon`: everything that records define.
* `Lexicon.scopeChain`: the scopes a name is looked up in.
* `Lexicon.findEntry`, `Lexicon.findAffix`: a definition with the scope it stands in.
* `Lexicon.patterns`: the inflection patterns of a template.
-/

namespace Etymon

/-- Entries stand in the order of their declaration; of several parents of a scope the last one
declared stands first. Eras are checked against `order` when there is one. -/
structure Lexicon where
  entries : List ((Scope × String) × Entry)
  affixes : List ((Scope × Affix) × AffixDefinition)
  templates : List (String × Template)
  parents : List (Scope × Scope)
  order : Option RuleOrder
  sources : List Path

namespace Lexicon

def empty : Lexicon := ⟨[], [], [], [], none, []⟩

def withOrder (lex : Lexicon) (order : RuleOrder) : Lexicon :=
  { lex with order := some order }

/-! ## Scopes -/

/-- Adds the ancestors of the chain's last scope until one has no parent or is there already. Each
step adds a declared parent, so the number of declarations bounds the steps. -/
def ancestors (parents : List (Scope × Scope)) : Nat → List Scope → Scope → List Scope
  | 0, chain, _ => chain
  | steps + 1, chain, last =>
    match parents.lookup last with
    | none => chain
    | some parent =>
      if chain.contains parent then chain else ancestors parents steps (chain ++ [parent]) parent

/-- A scope, its ancestors, then the root scope. -/
def scopeChain (lex : Lexicon) (scope : Scope) : List Scope :=
  let chain := ancestors lex.parents lex.parents.length [scope] scope
  if chain.any Scope.isRoot then chain else chain ++ [Scope.root]

/-! ## Definitions -/

/-- The first definition of a name along a chain of scopes, with the scope it stands in. -/
def firstIn {κ α : Type} [BEq κ] (definitions : List ((Scope × κ) × α)) (name : κ)
    (chain : List Scope) : Option (Scope × α) :=
  chain.findSome? fun scope => (definitions.lookup (scope, name)).map (scope, ·)

def findEntry (lex : Lexicon) (name : String) (scope : Scope) : Except Error (Scope × Entry) :=
  match firstIn lex.entries name (lex.scopeChain scope) with
  | some found => .ok found
  | none => .error (.missingLexeme name scope)

def findAffix (lex : Lexicon) (affix : Affix) (scope : Scope) :
    Except Error (Scope × AffixDefinition) :=
  match firstIn lex.affixes affix (lex.scopeChain scope) with
  | some found => .ok found
  | none => .error (.missingAffix affix scope)

def findTemplate (lex : Lexicon) (name : String) : Except Error Template :=
  match lex.templates.lookup name with
  | some found => .ok found
  | none => .error (.missingTemplate name)

/-- The patterns of a template; without a template, the pattern that adds nothing. -/
def patterns (lex : Lexicon) : Option String → Except Error (List Frame)
  | none => .ok [.empty]
  | some name => (lex.findTemplate name).map Template.patterns

end Lexicon

end Etymon
