import Etymon.SortedMap
import Etymon.Text.Split
import Etymon.Word

/-!
# Tags and sentences

A bag of tags stands in front of a sentence or inside a record and gives each key one value. The tag
`scope` names the language variety that the sentence or record belongs to.

## Main definitions

* `Tags`: tags in increasing order of their keys.
* `Sentence`: words under one bag of tags.
-/

namespace Etymon

/-- One value for each key. -/
abbrev Tags := SortedMap String

namespace Tags

/-- The scope that the tag `scope` names. -/
def scope? (tags : Tags) : Option Scope :=
  (tags.get? "scope").map Scope.mk

/-- A tag without a value is written without its colon. -/
def renderItem (item : String × String) : String :=
  if item.2.isEmpty then item.1 else item.1 ++ ":" ++ item.2

def render (tags : Tags) : String :=
  "\x7b" ++ Text.joinWith " " (tags.items.map renderItem) ++ "\x7d"

end Tags

structure Sentence where
  tags : Tags
  words : List Word

/-- The scope a sentence is looked up in: its own, else the given one. -/
def Sentence.scopeOr (s : Sentence) (fallback : Scope) : Scope :=
  s.tags.scope?.getD fallback

end Etymon
