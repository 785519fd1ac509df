import Etymon.Reading.Word
import Etymon.Sentence

/-!
# Reading sentences

A sentence is a bag of tags, which may be missing, and one word or more.

## Main definitions

* `tags`: a bag of tags, empty where none starts.
* `sentence`: a whole text as a sentence.
-/

namespace Etymon.Reading

open Text

def isKeyChar (c : Char) : Bool :=
  !isBlank c && c != ':' && c != '}'

def isValueChar (c : Char) : Bool :=
  !isBlank c && c != '}'

/-- The value behind a key: empty without a colon. -/
def tagValue : List Char → String × List Char
  | ':' :: s => (String.ofList (s.takeWhile isValueChar), s.dropWhile isValueChar)
  | s => ("", s)

/-- The tags up to the closing brace. Every tag uses up at least one character, so one more than the
length of the text is fuel enough. -/
def tagsWithin : Nat → Tags → Reader Tags
  | 0, _, s => .error (.expected "'\x7d'" s)
  | fuel + 1, known, s =>
    match trimStart s with
    | '}' :: s => .ok (known, s)
    | [] => .error (.expected "'\x7d'" [])
    | s => do
      let (key, s) ← run isKeyChar "tag name" s
      let (value, s) := tagValue s
      if (known.get? key).isSome then .error (.repeatedTag key)
      else tagsWithin fuel (known.insert key value) s

def tags : Reader Tags
  | '{' :: s => tagsWithin (s.length + 1) .empty s
  | s => .ok (.empty, s)

/-- The words up to the end of the text. -/
def words : Nat → List Char → Except ReadFault (List Word)
  | 0, _ => .ok []
  | fuel + 1, s =>
    match trimStart s with
    | [] => .ok []
    | s => do
      let (w, s) ← word s
      let rest ← words fuel s
      return w :: rest

def sentence (text : List Char) : Except ReadFault Sentence := do
  let (bag, s) ← tags (trimStart text)
  match ← words (s.length + 1) s with
  | [] => .error (.expected "a word" [])
  | found => return ⟨bag, found⟩

end Etymon.Reading

namespace Etymon

/-- The sentence that typed input says. -/
def Sentence.parse (text : String) : Except Error Sentence :=
  (Reading.sentence text.toList).mapError (·.toError none 1 text.toList)

end Etymon
