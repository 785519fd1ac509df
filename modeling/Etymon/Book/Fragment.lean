import Etymon.Text.Blank

/-!
# Fragments of a book

A fragment is a sentence between double brackets, perhaps with a bar and the name of the form to show.
Fragments are found from left to right and do not overlap.

## Main definitions

* `Shown`: which form of the evolved words a fragment shows.
* `Fragment`: a sentence and what to show of it.
* `Fragment.cut?`: the fragment at the start of a text, with the text behind it.
* `spans`: a text as single characters and fragments.
* `escapeMarkdown`: a text that reads literally in a book.
* `escapeHtml`: a character that reads literally in a page.
-/

namespace Etymon

open Text

inductive Shown where
  | modern
  | phonetic
  | proto
  deriving DecidableEq, Repr

def Shown.label : Shown → String
  | modern => "modern"
  | phonetic => "phonetic"
  | proto => "proto"

structure Fragment where
  sentence : String
  shown : Shown
  deriving DecidableEq, Repr

/-- What is left of a text behind a given beginning. -/
def behind? (start cs : List Char) : Option (List Char) :=
  if start.isPrefixOf cs then some (cs.drop start.length) else none

/-- The sentence of a fragment goes up to its first bracket or bar. -/
def isSentenceChar (c : Char) : Bool :=
  c != ']' && c != '|'

/-- What ends a fragment, by the form that it asks for. -/
def Shown.closings : List (Shown × List Char) :=
  (Shown.modern, [']', ']']) ::
    [Shown.modern, .phonetic, .proto].map fun s => (s, '|' :: s.label.toList ++ [']', ']'])

def closing? (cs : List Char) : Option (Shown × List Char) :=
  Shown.closings.findSome? fun (shown, close) => (behind? close cs).map (shown, ·)

def Fragment.cut? (cs : List Char) : Option (Fragment × List Char) := do
  let inside ← behind? ['[', '['] cs
  let body := inside.takeWhile isSentenceChar
  if body.isEmpty then none
  else
    let (shown, rest) ← closing? (inside.dropWhile isSentenceChar)
    return (⟨String.ofList (trim body), shown⟩, rest)

inductive Span where
  | char (c : Char)
  | fragment (f : Fragment)
  deriving DecidableEq, Repr

/-- The spans of what follows the first `skip` characters, which belong to a fragment found before. -/
def spansFrom : Nat → List Char → List Span
  | _, [] => []
  | skip + 1, _ :: cs => spansFrom skip cs
  | 0, c :: cs =>
    match Fragment.cut? (c :: cs) with
    | some (f, rest) => .fragment f :: spansFrom (cs.length - rest.length) cs
    | none => .char c :: spansFrom 0 cs

def spans (cs : List Char) : List Span :=
  spansFrom 0 cs

/-! ## Literal text -/

/-- The characters that markdown may give a meaning. -/
def isPunctuation (c : Char) : Bool :=
  let n := c.toNat
  (0x21 ≤ n && n ≤ 0x2f) || (0x3a ≤ n && n ≤ 0x40) || (0x5b ≤ n && n ≤ 0x60) ||
    (0x7b ≤ n && n ≤ 0x7e)

def escapeMarkdown (cs : List Char) : List Char :=
  cs.flatMap fun c => if isPunctuation c then ['\\', c] else [c]

/-- The character as it stands in markup. -/
def escapeHtml (c : Char) : List Char :=
  if c = '<' then "&lt;".toList
  else if c = '>' then "&gt;".toList
  else if c = '&' then "&amp;".toList
  else [c]

end Etymon
