import Etymon.Json.Reader
import Etymon.Toml

/-!
# Reading quoted strings

A string stands between double quotes, with escapes, or between single quotes, without. Three quotes
open a string that may go over several lines; a line end right behind them does not count.

## Main definitions

* `Toml.quoted?`: a string of any kind, and the text behind it.
* `Toml.quotedKey?`: a string that fits a key, on one line.
-/

namespace Etymon.Toml

def isSpace (c : Char) : Bool :=
  c = ' ' || c = '\t'

def skipSpaces (cs : List Char) : List Char :=
  cs.dropWhile isSpace

/-- The text behind a line end. -/
def lineEnd? : List Char → Option (List Char)
  | '\n' :: cs => some cs
  | '\r' :: '\n' :: cs => some cs
  | _ => none

/-! ## Escapes -/

/-- A number of hexadecimal digits. -/
def hex? : Nat → Nat → List Char → Option (Nat × List Char)
  | 0, value, cs => some (value, cs)
  | digits + 1, value, c :: cs => do hex? digits (value * 16 + (← Json.hexValue? c)) cs
  | _ + 1, _, [] => none

/-- A character by its number of so many digits. -/
def numbered? (digits : Nat) (cs : List Char) : Option (Char × List Char) := do
  let (n, rest) ← hex? digits 0 cs
  if n.isValidChar then return (Char.ofNat n, rest) else none

def escaped? : List Char → Option (Char × List Char)
  | 'b' :: cs => some (Char.ofNat 0x8, cs)
  | 't' :: cs => some ('\t', cs)
  | 'n' :: cs => some ('\n', cs)
  | 'f' :: cs => some (Char.ofNat 0xc, cs)
  | 'r' :: cs => some ('\r', cs)
  | '"' :: cs => some ('"', cs)
  | '\\' :: cs => some ('\\', cs)
  | 'u' :: cs => numbered? 4 cs
  | 'U' :: cs => numbered? 8 cs
  | _ => none

/-! ## Bodies -/

/-- A string between double quotes, after the first. Every step uses up a character, so the length of
the text is fuel enough here and below. -/
def basicBody? : Nat → List Char → Option (List Char × List Char)
  | 0, _ | _, [] => none
  | _ + 1, '"' :: cs => some ([], cs)
  | fuel + 1, '\\' :: cs => do
    let (c, rest) ← escaped? cs
    let (body, rest) ← basicBody? fuel rest
    return (c :: body, rest)
  | fuel + 1, c :: cs =>
    if isPlain c then (basicBody? fuel cs).map fun (body, rest) => (c :: body, rest) else none

/-- A string between single quotes, after the first. -/
def literalBody? : List Char → Option (List Char × List Char)
  | [] => none
  | '\'' :: cs => some ([], cs)
  | c :: cs =>
    if isPlain c then (literalBody? cs).map fun (body, rest) => (c :: body, rest) else none

/-- Up to two quotes in front of the closing three belong to the string. -/
def closing (quote : Char) : List Char → List Char × List Char
  | a :: b :: cs =>
    if a = quote then if b = quote then ([a, b], cs) else ([a], b :: cs) else ([], a :: b :: cs)
  | [a] => if a = quote then ([a], []) else ([], [a])
  | [] => ([], [])

/-- Blanks and line ends, of which a backslash at the end of a line takes away all. -/
def skipLines : Nat → List Char → List Char
  | 0, cs => cs
  | fuel + 1, cs =>
    match lineEnd? (skipSpaces cs) with
    | some rest => skipLines fuel rest
    | none => skipSpaces cs

/-- The text of a string over several lines. Between single quotes there are no escapes. -/
def linesBody? (quote : Char) : Nat → List Char → Option (List Char × List Char)
  | 0, _ | _, [] => none
  | fuel + 1, c :: cs =>
    let more (found : List Char) (rest : List Char) : Option (List Char × List Char) :=
      (linesBody? quote fuel rest).map fun (body, rest) => (found ++ body, rest)
    if c = quote then
      match cs with
      | a :: b :: rest => if a = quote ∧ b = quote then some (closing quote rest) else more [c] cs
      | _ => more [c] cs
    else if c = '\\' ∧ quote = '"' then
      match lineEnd? (skipSpaces cs) with
      | some rest => more [] (skipLines rest.length rest)
      | none => do
        let (c, rest) ← escaped? cs
        more [c] rest
    else
      match lineEnd? (c :: cs) with
      | some rest => more ['\n'] rest
      | none => if isPlain c then more [c] cs else none

/-! ## Strings -/

def afterOpening (cs : List Char) : List Char :=
  (lineEnd? cs).getD cs

def quotedKey? : List Char → Option (String × List Char)
  | '"' :: cs => (basicBody? (cs.length + 1) cs).map fun (body, rest) => (String.ofList body, rest)
  | '\'' :: cs => (literalBody? cs).map fun (body, rest) => (String.ofList body, rest)
  | _ => none

def quoted? (cs : List Char) : Option (String × List Char) :=
  match cs with
  | '"' :: '"' :: '"' :: cs =>
    (linesBody? '"' (cs.length + 1) (afterOpening cs)).map fun (body, rest) =>
      (String.ofList body, rest)
  | '\'' :: '\'' :: '\'' :: cs =>
    (linesBody? '\'' (cs.length + 1) (afterOpening cs)).map fun (body, rest) =>
      (String.ofList body, rest)
  | cs => quotedKey? cs

end Etymon.Toml
