import Etymon.Json

/-!
# Reading JSON

A text is one value between blanks. Arrays and objects nest at most `maxDepth` deep; a number must
not exceed the range of a double; escaped surrogates must come in pairs.

## Main definitions

* `Json.parse?`: the value a text holds.
-/

namespace Etymon.Json

def maxDepth : Nat := 127

def skipWhite : List Char → List Char
  | c :: cs => if c = ' ' ∨ c = '\n' ∨ c = '\t' ∨ c = '\r' then skipWhite cs else c :: cs
  | [] => []

def hexValue? (c : Char) : Option Nat :=
  if '0' ≤ c ∧ c ≤ '9' then some (c.toNat - 48)
  else if 'a' ≤ c ∧ c ≤ 'f' then some (c.toNat - 87)
  else if 'A' ≤ c ∧ c ≤ 'F' then some (c.toNat - 55)
  else none

/-- Four hexadecimal digits. -/
def hexUnit? : List Char → Option (Nat × List Char)
  | a :: b :: c :: d :: rest => do
    let a ← hexValue? a
    let b ← hexValue? b
    let c ← hexValue? c
    let d ← hexValue? d
    return (((a * 16 + b) * 16 + c) * 16 + d, rest)
  | _ => none

/-- What follows `\u`: one unit, or two that form a surrogate pair. -/
def escapedUnits? (cs : List Char) : Option (Char × List Char) := do
  let (unit, rest) ← hexUnit? cs
  if 0xdc00 ≤ unit ∧ unit ≤ 0xdfff then none
  else if 0xd800 ≤ unit ∧ unit ≤ 0xdbff then
    match rest with
    | '\\' :: 'u' :: rest =>
      let (low, rest) ← hexUnit? rest
      if 0xdc00 ≤ low ∧ low ≤ 0xdfff then
        return (Char.ofNat (0x10000 + (unit - 0xd800) * 0x400 + (low - 0xdc00)), rest)
      else none
    | _ => none
  else return (Char.ofNat unit, rest)

def escaped? : List Char → Option (Char × List Char)
  | '"' :: rest => some ('"', rest)
  | '\\' :: rest => some ('\\', rest)
  | '/' :: rest => some ('/', rest)
  | 'b' :: rest => some (Char.ofNat 0x8, rest)
  | 'f' :: rest => some (Char.ofNat 0xc, rest)
  | 'n' :: rest => some ('\n', rest)
  | 'r' :: rest => some ('\r', rest)
  | 't' :: rest => some ('\t', rest)
  | 'u' :: rest => escapedUnits? rest
  | _ => none

/-- The characters of a string after its opening quote; each step uses up at least one character, so
the length of the text is fuel enough. -/
def stringBody? : Nat → List Char → Option (List Char × List Char)
  | 0, _ => none
  | _ + 1, [] => none
  | _ + 1, '"' :: rest => some ([], rest)
  | fuel + 1, '\\' :: rest => do
    let (c, rest) ← escaped? rest
    let (body, rest) ← stringBody? fuel rest
    return (c :: body, rest)
  | fuel + 1, c :: rest => do
    if c.toNat < 0x20 then none
    else
      let (body, rest) ← stringBody? fuel rest
      return (c :: body, rest)

def string? (cs : List Char) : Option (String × List Char) := do
  let (body, rest) ← stringBody? (cs.length + 1) cs
  return (String.ofList body, rest)

/-! ## Numbers -/

def digits (cs : List Char) : List Char × List Char :=
  (cs.takeWhile Char.isDigit, cs.dropWhile Char.isDigit)

def natOfDigits (ds : List Char) : Nat :=
  ds.foldl (fun n d => n * 10 + (d.toNat - 48)) 0

/-- Takes digits behind those of a number while 64 bits hold them: the number, and how many digits are
left. -/
def takeDigits : Nat → List Char → Nat × Nat
  | n, [] => (n, 0)
  | n, d :: ds =>
    let next := n * 10 + (d.toNat - 48)
    if next < 18446744073709551616 then takeDigits next ds else (n, ds.length + 1)

/-- A number with as many of its bits as a double holds, the last one rounded; ties go to even. -/
def nearestDouble (n : Nat) : Nat :=
  let unit := Nat.pow 2 (n.log2 - 52)
  let kept := n / unit
  let twice := 2 * (n % unit)
  (if unit < twice ∨ (unit = twice ∧ kept % 2 = 1) then kept + 1 else kept) * unit

/-- Whether a number of 64 bits times a power of ten is held by a double. Both factors are rounded before
they are multiplied. -/
def inDoubleRange (n : Nat) (exponent : Int) : Bool :=
  if n = 0 ∨ exponent < 0 then true
  else if exponent > 308 then false
  else nearestDouble n * nearestDouble (Nat.pow 10 exponent.toNat) < Nat.pow 2 1024 - Nat.pow 2 970

/-- Whether a double can be read off some digits, those of a fraction, and an exponent. Digits of the
fraction that 64 bits do not hold are ignored. -/
def fitsDouble (whole part : List Char) (exponent : Int) : Bool :=
  let (n, left) := takeDigits 0 whole
  let (n, ignored) := takeDigits n part
  inDoubleRange n (exponent + left - (part.length - ignored))

/-- The digits after a point, without the point; empty when there is none. -/
def fraction? : List Char → Option (List Char × List Char)
  | '.' :: rest =>
    match digits rest with
    | ([], _) => none
    | found => some found
  | rest => some ([], rest)

def exponentDigits? (negative : Bool) (cs : List Char) : Option (Int × List Char) :=
  match digits cs with
  | ([], _) => none
  | (ds, rest) => some (if negative then -(natOfDigits ds : Int) else natOfDigits ds, rest)

def exponent? : List Char → Option (Option Int × List Char)
  | 'e' :: cs | 'E' :: cs => do
    let (n, rest) ← match cs with
      | '+' :: cs => exponentDigits? false cs
      | '-' :: cs => exponentDigits? true cs
      | cs => exponentDigits? false cs
    return (some n, rest)
  | rest => some (none, rest)

/-- An unsigned number. An integer has no fraction, no exponent, and fits 64 bits: unsigned ones
without a sign, signed ones with it. Negative zero is not an integer. -/
def unsigned? (negative : Bool) (cs : List Char) : Option (Json × List Char) := do
  let (whole, rest) := digits cs
  match whole with
  | [] => none
  | '0' :: _ :: _ => none
  | _ =>
    let (part, afterPart) ← fraction? rest
    let (exponent, after) ← exponent? afterPart
    let n := natOfDigits whole
    let fits :=
      if negative then 0 < n ∧ n ≤ 9223372036854775808 else n < 18446744073709551616
    if part.isEmpty ∧ exponent.isNone ∧ fits then
      return (int (if negative then -(n : Int) else n), after)
    else if fitsDouble whole part (exponent.getD 0) then
      let spelling := cs.take (cs.length - after.length)
      return (decimal (String.ofList (if negative then '-' :: spelling else spelling)), after)
    else none

def scalar? : List Char → Option (Json × List Char)
  | 'n' :: 'u' :: 'l' :: 'l' :: rest => some (null, rest)
  | 't' :: 'r' :: 'u' :: 'e' :: rest => some (bool true, rest)
  | 'f' :: 'a' :: 'l' :: 's' :: 'e' :: rest => some (bool false, rest)
  | '"' :: rest => do
    let (s, rest) ← string? rest
    return (string s, rest)
  | '-' :: rest => unsigned? true rest
  | cs => unsigned? false cs

/-! ## Arrays and objects -/

/-- The items up to the closing bracket. Each item uses up a character, so the length of the text is
fuel enough. -/
def items? (value : List Char → Option (Json × List Char)) :
    Nat → List Char → Option (List Json × List Char)
  | 0, _ => none
  | fuel + 1, cs => do
    let (item, rest) ← value cs
    match skipWhite rest with
    | ',' :: rest =>
      let (items, rest) ← items? value fuel rest
      return (item :: items, rest)
    | ']' :: rest => return ([item], rest)
    | _ => none

/-- The members up to the closing brace. -/
def members? (value : List Char → Option (Json × List Char)) :
    Nat → List Char → Option (List (String × Json) × List Char)
  | 0, _ => none
  | fuel + 1, cs =>
    match skipWhite cs with
    | '"' :: rest => do
      let (key, rest) ← string? rest
      match skipWhite rest with
      | ':' :: rest =>
        let (item, rest) ← value rest
        match skipWhite rest with
        | ',' :: rest =>
          let (members, rest) ← members? value fuel rest
          return ((key, item) :: members, rest)
        | '}' :: rest => return ([(key, item)], rest)
        | _ => none
      | _ => none
    | _ => none

/-- A value that opens at most the given number of brackets inside one another. -/
def value? : Nat → List Char → Option (Json × List Char)
  | 0, cs => scalar? (skipWhite cs)
  | depth + 1, cs =>
    match skipWhite cs with
    | '[' :: rest =>
      match skipWhite rest with
      | ']' :: rest => some (array [], rest)
      | rest => do
        let (items, rest) ← items? (value? depth) (rest.length + 1) rest
        return (array items, rest)
    | '{' :: rest =>
      match skipWhite rest with
      | '}' :: rest => some (object [], rest)
      | rest => do
        let (members, rest) ← members? (value? depth) (rest.length + 1) rest
        return (object members, rest)
    | rest => scalar? rest

def parse? (text : String) : Option Json := do
  let (value, rest) ← value? maxDepth text.toList
  if (skipWhite rest).isEmpty then some value else none

end Etymon.Json
