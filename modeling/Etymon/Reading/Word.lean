import Etymon.Reading.Basic
import Etymon.Text.Alphanumeric

/-!
# Reading words

The notation of morphemes, lexemes, affixes and joins. A word is a chain of parts joined from left to
right; a part is a stem between its prefixes and suffixes, and a stem may be a word in quotes.

## Main definitions

* `isIdentChar`, `isFormChar`: what names and proto-forms are made of.
* `framed`: what stands between the affixes around a stem, together with them.
* `part`, `joins`: one part of a word, and the parts that are joined to it.
* `word`: a whole word.
-/

namespace Etymon.Reading

open Text

def isIdentChar (c : Char) : Bool :=
  isAlphanumeric c || c == '_' || c == '-'

def reserved : List Char :=
  ['.', '@', '"', '<', '>', '(', ')', '!', '+', '{', '}', '%', '$', '#', '&', '*']

def isFormChar (c : Char) : Bool :=
  !isBlank c && !reserved.contains c

def isLexemeChar (c : Char) : Bool :=
  c != '>' && c != '<' && !isBlank c

/-- An era with its `@`, if one stands here. -/
def era? : Reader (Option Era)
  | '@' :: s => do
    let (name, s) ← run isIdentChar "rule name" s
    return (some ⟨name⟩, s)
  | s => .ok (none, s)

def scope : Reader Scope := fun s => do
  let (_, s) ← expect '%' "'%' scope" s
  let (name, s) ← run isIdentChar "scope name" s
  return (⟨name⟩, s)

/-- What follows the star of a morpheme. -/
def morphemeBody : Reader Morpheme := fun s => do
  let (form, s) ← run isFormChar "morpheme form" s
  let (era, s) ← era? s
  return (⟨form, era⟩, s)

/-- What follows the opening bracket of a lexeme. -/
def lexemeBody : Reader Lexeme := fun s => do
  let (name, s) ← run isLexemeChar "lexeme name" s
  let (_, s) ← expect '>' "'>'" s
  match s with
  | '%' :: _ =>
    let (owner, s) ← scope s
    return (⟨name, some owner⟩, s)
  | _ => return (⟨name, none⟩, s)

def lexeme : Reader Lexeme := fun s => do
  let (_, s) ← expect '<' "'<' lexeme" s
  lexemeBody s

/-- Prefixes in front of a stem; `inner` holds the ones read so far, innermost first. Every prefix
uses up at least one character, so the length of the text is fuel enough. -/
def prefixesAfter (inner : List String) : Nat → Reader (List String)
  | 0, s => .ok (inner, s)
  | fuel + 1, s =>
    match s with
    | [] => .ok (inner, s)
    | c :: _ =>
      if isIdentChar c then do
        let (name, s) ← run isIdentChar "prefix name" s
        let (_, s) ← expect '.' "'.' after prefix" s
        prefixesAfter (name :: inner) fuel s
      else .ok (inner, s)

def prefixNames : Reader (List String) := fun s =>
  prefixesAfter [] s.length s

/-- Suffixes behind a stem. A dot that no name follows is left alone. -/
def suffixesWithin : Nat → List Char → List String × List Char
  | 0, s => ([], s)
  | fuel + 1, s =>
    match s with
    | '.' :: c :: rest =>
      if isIdentChar c then
        let name := (c :: rest).takeWhile isIdentChar
        let (outer, s) := suffixesWithin fuel ((c :: rest).dropWhile isIdentChar)
        (String.ofList name :: outer, s)
      else ([], s)
    | _ => ([], s)

def suffixNames (s : List Char) : List String × List Char :=
  suffixesWithin s.length s

/-- A stem read by `stem` between its affixes; `finish` puts them together. -/
def framed {α β : Type} (stem : Reader α) (finish : Frame → α → β) : Reader β := fun s => do
  let (before, s) ← prefixNames s
  let (inside, s) ← stem s
  let (after, s) := suffixNames s
  return (finish ⟨before, after⟩ inside, s)

/-- A stem: a morpheme, a lexeme, or a word in quotes that `inner` reads. -/
def stem (inner : Reader Word) : Reader (Frame → Word)
  | '*' :: s => do
    let (m, s) ← morphemeBody s
    return (fun frame => .morpheme frame m, s)
  | '<' :: s => do
    let (l, s) ← lexemeBody s
    return (fun frame => .lexeme frame l, s)
  | '"' :: s => do
    let (w, s) ← inner s
    let (_, s) ← expect '"' "closing '\"'" (trimStart s)
    return (fun frame => if frame.isEmpty then w else .bracket frame w, s)
  | s => .error (.expected "stem (*form, <lexeme> or \"compound\")" s)

/-- One part of a word. Quotes without affixes around them leave no trace. -/
def part (inner : Reader Word) : Reader Word :=
  framed (stem inner) fun frame build => build frame

/-- A joiner, if one stands here. -/
def joiner? : Reader (Option Joiner)
  | '!' :: '+' :: s => do
    let (era, s) ← era? s
    return (some ⟨.head, era⟩, s)
  | '+' :: '!' :: s => do
    let (era, s) ← era? s
    return (some ⟨.tail, era⟩, s)
  | s => .ok (none, s)

/-- The parts joined to what is already read. Every join uses up at least one character, so the
length of the text is fuel enough. -/
def joins (next : Reader Word) : Nat → Word → Reader Word
  | 0, w, s => .ok (w, trimStart s)
  | fuel + 1, w, s => do
    match ← joiner? (trimStart s) with
    | (none, s) => return (w, s)
    | (some j, s) =>
      let (tail, s) ← next (trimStart s)
      joins next fuel (.join w j tail) s

/-- A word in which at most `depth` quotes are opened inside one another. -/
def wordWithin : Nat → Reader Word
  | 0, s => .error (.expected "stem (*form, <lexeme> or \"compound\")" s)
  | depth + 1, s => do
    let next := part (wordWithin depth)
    let (first, s) ← next (trimStart s)
    joins next s.length first s

/-- Blanks, a word, and the blanks after it. A text cannot open more quotes than it has characters. -/
def word : Reader Word := fun s =>
  wordWithin (s.length + 1) s

/-- An inflection pattern: a `$` between its affixes. -/
def pattern : Reader Frame :=
  framed (expect '$' "'$' variable") fun frame _ => frame

end Etymon.Reading
