import Etymon.Book.Fragment
import Etymon.Text.Lines
import Etymon.Text.Split

/-!
# Books as web pages

A plain book has headings, marked by number signs, and paragraphs between blank lines. A backslash makes
the punctuation behind it literal, or breaks the line; two spaces at the end of a line break it, too. The
other marks of markdown stand for themselves here: a page can be made with any other markup as well.

## Main definitions

* `Block`: a heading or a paragraph with its lines.
* `Markdown.blocks`: the blocks of a text.
* `Markdown.toHtml`: the markup of a text.
-/

namespace Etymon

open Text

inductive Block where
  | heading (level : Nat) (text : List Char)
  | paragraph (lines : List (List Char))
  deriving DecidableEq, Repr

namespace Markdown

def isSpace (c : Char) : Bool :=
  c = ' ' || c = '\t'

def dropSpaces (cs : List Char) : List Char :=
  cs.dropWhile isSpace

def dropEndSpaces (cs : List Char) : List Char :=
  (cs.reverse.dropWhile isSpace).reverse

/-- A heading without the number signs that close it. -/
def dropClosing (cs : List Char) : List Char :=
  let reversed := (dropEndSpaces cs).reverse
  match reversed.dropWhile (· = '#') with
  | [] => []
  | c :: before => if isSpace c then (before.dropWhile isSpace).reverse else reversed.reverse

/-- A heading opens with one to six number signs and a space, after no more than three spaces. -/
def heading? (line : List Char) : Option Block :=
  let text := line.dropWhile (· = ' ')
  let level := (text.takeWhile (· = '#')).length
  let rest := text.drop level
  if line.length - text.length ≤ 3 && 1 ≤ level && level ≤ 6 && rest.head?.all isSpace then
    some (.heading level (dropClosing (dropSpaces rest)))
  else none

/-- Puts a line in front of the blocks that follow it. -/
def consLine (line : List Char) : List Block → List Block
  | .paragraph ls :: blocks => .paragraph (line :: ls) :: blocks
  | blocks => .paragraph [line] :: blocks

/-- The blocks of some lines; the flag tells whether the first of them is a paragraph that the line
before would belong to. -/
def gather : List (List Char) → Bool × List Block
  | [] => (false, [])
  | line :: rest =>
    let (joins, blocks) := gather rest
    if (dropSpaces line).isEmpty then (false, blocks)
    else
      match heading? line with
      | some block => (false, block :: blocks)
      | none =>
        let line := dropSpaces line
        (true, if joins then consLine line blocks else .paragraph [line] :: blocks)

def blocks (text : List Char) : List Block :=
  (gather (lines text)).2

/-! ## Markup -/

/-- The text of a line in markup; a backslash in front of punctuation goes away. -/
def inline : List Char → List Char
  | [] => []
  | ['\\'] => ['\\']
  | '\\' :: c :: cs =>
    if isPunctuation c then escapeHtml c ++ inline cs else '\\' :: inline (c :: cs)
  | c :: cs => escapeHtml c ++ inline cs

/-- Whether the last of the characters is a backslash that nothing escapes. -/
def endsInBackslash (cs : List Char) : Bool :=
  (cs.reverse.takeWhile (· = '\\')).length % 2 == 1

/-- A line that another one follows, with the break between them. -/
def lineAndBreak (line : List Char) : List Char :=
  let text := dropEndSpaces line
  if endsInBackslash line then inline line.dropLast ++ "<br />\n".toList
  else if (line.reverse.takeWhile (· = ' ')).length ≥ 2 then inline text ++ "<br />\n".toList
  else inline text ++ ['\n']

def paragraphText : List (List Char) → List Char
  | [] => []
  | [line] => inline (dropEndSpaces line)
  | line :: rest => lineAndBreak line ++ paragraphText rest

def element (name : String) (content : List Char) : List Char :=
  ("<" ++ name ++ ">").toList ++ content ++ ("</" ++ name ++ ">\n").toList

def blockHtml : Block → List Char
  | .heading level text => element ("h" ++ toString level) (inline text)
  | .paragraph ls => element "p" (paragraphText ls)

def toHtml (text : String) : String :=
  String.ofList ((blocks text.toList).flatMap blockHtml)

end Markdown

end Etymon
