/-!
# Literal replacement

Every occurrence of one text inside another gives way to a third, from left to right and without
overlaps. The empty text occurs once before each character and once at the end.

## Main definitions

* `replaceAll`: the replacement on lists of characters.
* `contains`: whether a text occurs inside another.
* `replacing`, `containing`: the same on strings.
-/

namespace Etymon.Text

/-- Replaces `old`, which is not empty, in what follows the first `skip` characters; these belong to
an occurrence already replaced and are left out. -/
def replaceFrom (old new : List Char) : Nat → List Char → List Char
  | _, [] => []
  | skip + 1, _ :: cs => replaceFrom old new skip cs
  | 0, c :: cs =>
    if old.isPrefixOf (c :: cs) then new ++ replaceFrom old new (old.length - 1) cs
    else c :: replaceFrom old new 0 cs

def replaceAll (old new cs : List Char) : List Char :=
  match old with
  | [] => new ++ cs.flatMap fun c => c :: new
  | _ :: _ => replaceFrom old new 0 cs

/-- Whether `part` occurs in the text. -/
def contains (part : List Char) : List Char → Bool
  | [] => part.isEmpty
  | c :: cs => part.isPrefixOf (c :: cs) || contains part cs

def replacing (s old new : String) : String :=
  String.ofList (replaceAll old.toList new.toList s.toList)

def containing (s part : String) : Bool :=
  contains part.toList s.toList

end Etymon.Text
