/-!
# Words of a command line

A command line is split into words as a shell does it. Blanks part words; quotes keep them together,
single ones everything between them, double ones all but what a backslash escapes; a number sign at the
start of a word opens a comment.

## Main definitions

* `shellWords?`: the words of a command line; `none` when a quote is left open.
-/

namespace Etymon.Text

/-- Where in a command line a character stands. -/
inductive ShellMode where
  | between
  | word
  | single
  | double
  | comment
  deriving DecidableEq, Repr

def isShellBlank (c : Char) : Bool :=
  c = ' ' || c = '\t' || c = '\n'

/-- The characters that a backslash makes literal between double quotes: dollar signs, backquotes,
double quotes and backslashes. -/
def isDoubleEscape (c : Char) : Bool :=
  c = '$' || c.toNat = 0x60 || c = '"' || c = '\\'

/-- The words of a text, of which `word` is what the first has so far. A backslash takes a line feed
away, and stands for itself at the end of the text. -/
def shellWordsFrom : ShellMode → List Char → List Char → Option (List (List Char))
  | .between, _, [] => some []
  | .between, _, '\'' :: cs => shellWordsFrom .single [] cs
  | .between, _, '"' :: cs => shellWordsFrom .double [] cs
  | .between, _, '#' :: cs => shellWordsFrom .comment [] cs
  | .between, _, ['\\'] => some [['\\']]
  | .between, _, '\\' :: c :: cs =>
    if c = '\n' then shellWordsFrom .between [] cs else shellWordsFrom .word [c] cs
  | .between, _, c :: cs =>
    if isShellBlank c then shellWordsFrom .between [] cs else shellWordsFrom .word [c] cs
  | .word, word, [] => some [word]
  | .word, word, '\'' :: cs => shellWordsFrom .single word cs
  | .word, word, '"' :: cs => shellWordsFrom .double word cs
  | .word, word, ['\\'] => some [word ++ ['\\']]
  | .word, word, '\\' :: c :: cs =>
    if c = '\n' then shellWordsFrom .word word cs else shellWordsFrom .word (word ++ [c]) cs
  | .word, word, c :: cs =>
    if isShellBlank c then (shellWordsFrom .between [] cs).map (word :: ·)
    else shellWordsFrom .word (word ++ [c]) cs
  | .single, _, [] => none
  | .single, word, c :: cs =>
    if c = '\'' then shellWordsFrom .word word cs else shellWordsFrom .single (word ++ [c]) cs
  | .double, _, [] => none
  | .double, word, '"' :: cs => shellWordsFrom .word word cs
  | .double, _, ['\\'] => none
  | .double, word, '\\' :: c :: cs =>
    if c = '\n' then shellWordsFrom .double word cs
    else if isDoubleEscape c then shellWordsFrom .double (word ++ [c]) cs
    else shellWordsFrom .double (word ++ ['\\', c]) cs
  | .double, word, c :: cs => shellWordsFrom .double (word ++ [c]) cs
  | .comment, _, [] => some []
  | .comment, _, c :: cs =>
    if c = '\n' then shellWordsFrom .between [] cs else shellWordsFrom .comment [] cs

def shellWords? (text : String) : Option (List String) :=
  (shellWordsFrom .between [] text.toList).map fun words => words.map String.ofList

end Etymon.Text
