import Etymon.Text.Blank
import Etymon.Text.Lines

/-!
# Trace lines

The engine reports what its rules did to a word: a header `Tracing WORD` opens the report of a word,
and each line `Applied RULE: BEFORE -> AFTER` tells of one rule. A line may name its word itself, as
in `Applied RULE to WORD: BEFORE -> AFTER`. Lines that say nothing of the kind do not count.

## Main definitions

* `TraceLine`: an application that changed a word.
* `application?`: what one line tells.
* `TraceLine.parse`: the changes that a report tells, each with its word.
-/

namespace Etymon

open Text

structure TraceLine where
  rule : String
  word : String
  before : String
  after : String
  deriving DecidableEq, Repr

/-- What follows `opening` in a text that starts with it. -/
def afterOpening? (opening : String) (cs : List Char) : Option (List Char) :=
  opening.toList.isPrefixOf? cs

/-- The text in front of a colon and a space, when it holds no blank and is not empty, and what
follows them. -/
def labelled? (cs : List Char) : Option (List Char × List Char) :=
  match (cs.takeWhile fun c => !isBlank c).reverse, cs.dropWhile fun c => !isBlank c with
  | ':' :: c :: label, ' ' :: rest => some ((c :: label).reverse, rest)
  | _, _ => none

/-- The texts before and after the first arrow between spaces. -/
def cutAtArrow? : List Char → Option (List Char × List Char)
  | [] => none
  | c :: cs =>
    match afterOpening? " -> " (c :: cs) with
    | some after => some ([], after)
    | none => (cutAtArrow? cs).map fun (before, after) => (c :: before, after)

structure Application where
  rule : List Char
  word : Option (List Char)
  before : List Char
  after : List Char
  deriving DecidableEq, Repr

/-- A rule with its word, a colon, and the change. -/
def wordedApplication? (cs : List Char) : Option Application := do
  let rule := cs.takeWhile fun c => !isBlank c
  if rule.isEmpty then none
  else
    let rest ← afterOpening? " to " (cs.dropWhile fun c => !isBlank c)
    let (word, change) ← labelled? rest
    let (before, after) ← cutAtArrow? change
    return ⟨rule, some word, before, after⟩

/-- A rule, a colon, and the change. -/
def plainApplication? (cs : List Char) : Option Application := do
  let (rule, change) ← labelled? cs
  let (before, after) ← cutAtArrow? change
  return ⟨rule, none, before, after⟩

/-- A line that can be read both ways names its word. -/
def application? (line : List Char) : Option Application := do
  let cs ← afterOpening? "Applied " line
  wordedApplication? cs <|> plainApplication? cs

/-- The change that an application tells, unless there is none; `current` is the word of the report it
stands in. -/
def Application.change? (current : List Char) (a : Application) : Option TraceLine :=
  let before := trim a.before
  let after := trim a.after
  if before = after then none
  else
    some ⟨String.ofList a.rule, String.ofList (a.word.getD current), String.ofList before,
      String.ofList after⟩

namespace TraceLine

/-- The changes told by trimmed lines; `current` is the word of the report they stand in. -/
def ofLines (current : List Char) : List (List Char) → List TraceLine
  | [] => []
  | line :: rest =>
    match afterOpening? "Tracing " line with
    | some word => ofLines (trim word) rest
    | none => ((application? line).bind (·.change? current)).toList ++ ofLines current rest

/-- The changes told by a report; lines before the first header are about `firstWord`. -/
def parse (text : List Char) (firstWord : String) : List TraceLine :=
  ofLines firstWord.toList ((lines text).map trim)

end TraceLine

end Etymon
