import Etymon.Toml.Quoted

/-!
# Reading values

## Main definitions

* `Toml.keys?`: the keys of a dotted key.
* `Toml.scalar?`: a string, number, truth value or moment.
* `Toml.define`: a table with one more value under a dotted key.
* `Toml.value?`: any value, and the text behind it.
-/

namespace Etymon.Toml

/-! ## Keys -/

def isKeyChar (c : Char) : Bool :=
  c.isAlphanum || c = '_' || c = '-'

def key? (cs : List Char) : Option (String × List Char) :=
  match cs.takeWhile isKeyChar with
  | [] => quotedKey? cs
  | key => some (String.ofList key, cs.dropWhile isKeyChar)

/-- Keys between dots, with spaces around each. Every key uses up a character, so the length of the text
is fuel enough. -/
def keysWithin? : Nat → List Char → Option (List String × List Char)
  | 0, _ => none
  | fuel + 1, cs => do
    let (key, rest) ← key? (skipSpaces cs)
    match skipSpaces rest with
    | '.' :: rest =>
      let (keys, rest) ← keysWithin? fuel rest
      return (key :: keys, rest)
    | rest => return ([key], rest)

/-- How deep values and keys may nest. -/
def maxDepth : Nat := 80

def keys? (cs : List Char) : Option (List String × List Char) := do
  let (keys, rest) ← keysWithin? (cs.length + 1) cs
  if keys.length ≤ maxDepth then return (keys, rest) else none

/-! ## Numbers -/

/-- Digits, with single underscores between them. -/
def digitRun (isDigit : Char → Bool) : List Char → List Char × List Char
  | '_' :: c :: cs =>
    if isDigit c then
      let (run, rest) := digitRun isDigit cs
      (c :: run, rest)
    else ([], '_' :: c :: cs)
  | c :: cs =>
    if isDigit c then
      let (run, rest) := digitRun isDigit cs
      (c :: run, rest)
    else ([], c :: cs)
  | [] => ([], [])

/-- A run of digits, which starts with a digit. -/
def digits? (isDigit : Char → Bool) : List Char → Option (List Char × List Char)
  | c :: cs => if isDigit c then some (digitRun isDigit (c :: cs)) else none
  | [] => none

def natOf (base : Nat) (ds : List Char) : Nat :=
  ds.foldl (fun n d => n * base + (Json.hexValue? d).getD 0) 0

/-- Integers have 64 bits, one of them for the sign. -/
def fitsInteger (n : Int) : Bool :=
  -9223372036854775808 ≤ n && n < 9223372036854775808

/-- A number with a base of its own, behind the mark of that base. -/
def based? (base : Nat) (isDigit : Char → Bool) (cs : List Char) : Option (Toml × List Char) := do
  let (ds, rest) ← digits? isDigit cs
  let n : Int := natOf base ds
  if fitsInteger n then return (integer n, rest) else none

/-- A sign, told by whether it is a minus, and the text behind it. -/
def sign : List Char → Bool × List Char
  | '+' :: cs => (false, cs)
  | '-' :: cs => (true, cs)
  | cs => (false, cs)

/-- The digits in front of a point: a zero stands alone. -/
def whole? (cs : List Char) : Option (List Char × List Char) :=
  match cs with
  | '0' :: cs => some (['0'], cs)
  | cs => digits? Char.isDigit cs

def decimalInteger? (cs : List Char) : Option (Toml × List Char) := do
  let (negative, cs) := sign cs
  let (ds, rest) ← whole? cs
  let n : Int := natOf 10 ds
  let n := if negative then -n else n
  if fitsInteger n then return (integer n, rest) else none

def integer? (cs : List Char) : Option (Toml × List Char) :=
  match cs with
  | '0' :: 'x' :: cs => based? 16 (fun c => (Json.hexValue? c).isSome) cs
  | '0' :: 'o' :: cs => based? 8 (fun c => '0' ≤ c && c ≤ '7') cs
  | '0' :: 'b' :: cs => based? 2 (fun c => c = '0' || c = '1') cs
  | cs => decimalInteger? cs

/-- A fraction without its point; nothing where there is none. -/
def fraction? : List Char → Option (List Char × List Char)
  | '.' :: cs => digits? Char.isDigit cs
  | cs => some ([], cs)

def exponent? : List Char → Option (Option Int × List Char)
  | 'e' :: cs | 'E' :: cs => do
    let (negative, cs) := sign cs
    let (ds, rest) ← digits? Char.isDigit cs
    let n : Int := natOf 10 ds
    return (some (if negative then -n else n), rest)
  | cs => some (none, cs)

/-- The part of a text in front of another that ends it. -/
def spelling (cs rest : List Char) : String :=
  String.ofList (cs.take (cs.length - rest.length))

/-- Whether `mantissa * 10 ^ exponent` rounds to a double. -/
def inDoubleRange (mantissa : Nat) (exponent : Int) : Bool :=
  let digitCount : Int := (toString mantissa).length
  if mantissa = 0 ∨ digitCount + exponent < 300 then true
  else if digitCount + exponent > 320 then false
  else
    let limit := Nat.pow 2 1024 - Nat.pow 2 970
    if exponent ≥ 0 then mantissa * Nat.pow 10 exponent.toNat < limit
    else mantissa < limit * Nat.pow 10 (-exponent).toNat

/-- A number with a fraction or an exponent, or one that is none. A positive one must not exceed the
range of a double. -/
def float? (cs : List Char) : Option (Toml × List Char) :=
  let (negative, unsigned) := sign cs
  match unsigned with
  | 'i' :: 'n' :: 'f' :: rest => some (float (spelling cs rest), rest)
  | 'n' :: 'a' :: 'n' :: rest => some (float (spelling cs rest), rest)
  | _ => do
    let (ds, afterWhole) ← whole? unsigned
    let (part, afterPart) ← fraction? afterWhole
    let (power, rest) ← exponent? afterPart
    if part.isEmpty && power.isNone then none
    else if negative || inDoubleRange (natOf 10 (ds ++ part)) (power.getD 0 - part.length) then
      return (float (spelling cs rest), rest)
    else none

/-! ## Moments -/

/-- A number of so many digits that lies between two bounds. -/
def ranged? (count low high : Nat) (cs : List Char) : Option (Nat × List Char) :=
  let ds := cs.take count
  let n := natOf 10 ds
  if ds.length = count ∧ ds.all Char.isDigit ∧ low ≤ n ∧ n ≤ high then some (n, cs.drop count)
  else none

def daysOf (year month : Nat) : Nat :=
  if month = 2 then
    if year % 4 = 0 ∧ (year % 100 ≠ 0 ∨ year % 400 = 0) then 29 else 28
  else if month = 4 ∨ month = 6 ∨ month = 9 ∨ month = 11 then 30
  else 31

def expect? (c : Char) : List Char → Option (List Char)
  | d :: cs => if c = d then some cs else none
  | [] => none

def date? (cs : List Char) : Option (List Char) := do
  let (year, cs) ← ranged? 4 0 9999 cs
  let (month, cs) ← ranged? 2 1 12 (← expect? '-' cs)
  let (_, cs) ← ranged? 2 1 (daysOf year month) (← expect? '-' cs)
  return cs

def clock? (cs : List Char) : Option (List Char) := do
  let (_, cs) ← ranged? 2 0 23 cs
  let (_, cs) ← ranged? 2 0 59 (← expect? ':' cs)
  let (_, cs) ← ranged? 2 0 60 (← expect? ':' cs)
  match cs with
  | '.' :: part =>
    let ds := part.takeWhile Char.isDigit
    if ds.isEmpty then return cs else return part.drop ds.length
  | cs => return cs

def zone? : List Char → Option (List Char)
  | 'Z' :: cs | 'z' :: cs => some cs
  | '+' :: cs | '-' :: cs => do
    let (_, cs) ← ranged? 2 0 23 cs
    let (_, cs) ← ranged? 2 0 59 (← expect? ':' cs)
    return cs
  | _ => none

/-- A time of day behind the mark that parts it from the date, perhaps with its zone. -/
def clockBehind? : List Char → Option (List Char)
  | c :: cs =>
    if c = 'T' || c = 't' || c = ' ' then (clock? cs).map fun rest => (zone? rest).getD rest else none
  | [] => none

def moment? (cs : List Char) : Option (Toml × List Char) :=
  let rest? := match date? cs with
    | some rest => some ((clockBehind? rest).getD rest)
    | none => clock? cs
  rest?.map fun rest => (moment (spelling cs rest), rest)

/-! ## Values -/

/-- A value without parts. The first reading that fits is the value's. -/
def scalar? (cs : List Char) : Option (Toml × List Char) :=
  match cs with
  | '"' :: _ | '\'' :: _ => (quoted? cs).map fun (s, rest) => (string s, rest)
  | 't' :: 'r' :: 'u' :: 'e' :: rest => some (boolean true, rest)
  | 'f' :: 'a' :: 'l' :: 's' :: 'e' :: rest => some (boolean false, rest)
  | cs => moment? cs <|> float? cs <|> integer? cs

/-- Puts a value in the place of the key's older one, or at the end. -/
def put (key : String) (value : Toml) : List (String × Toml) → List (String × Toml)
  | [] => [(key, value)]
  | item :: rest => if item.1 = key then (key, value) :: rest else item :: put key value rest

/-- Changes the last item. -/
def changeLast? (change : Toml → Option Toml) : List Toml → Option (List Toml)
  | [] => none
  | [last] => (change last).map ([·])
  | item :: rest => (changeLast? change rest).map (item :: ·)

/-- Changes the members of a table. -/
def changeTable? (change : List (String × Toml) → Option (List (String × Toml))) :
    Toml → Option Toml
  | table origin members => (change members).map (table origin)
  | _ => none

/-- Defines a key that is not taken, in the table that dotted keys lead to. They lead through tables that
no header opened, into one that only dotted keys have made. -/
def define (value : Toml) : List String → List (String × Toml) → Option (List (String × Toml))
  | [], _ => none
  | [key], members =>
    if (members.lookup key).isSome then none else some (members ++ [(key, value)])
  | key :: next :: rest, members =>
    let inside := define value (next :: rest)
    match members.lookup key with
    | none => (inside []).map fun inner => members ++ [(key, table .dotted inner)]
    | some (table origin inner) =>
      if origin = .dotted ∨ (origin = .implied ∧ !rest.isEmpty) then
        (inside inner).map fun inner => put key (table origin inner) members
      else none
    | some (tables elements) =>
      if rest.isEmpty then none
      else (changeLast? (changeTable? inside) elements).map fun elements =>
        put key (tables elements) members
    | some _ => none

/-- The text behind a comment. -/
def comment? : List Char → Option (List Char)
  | '#' :: cs => some (cs.dropWhile isPlain)
  | _ => none

/-- The text behind blanks, line ends and comments. A comment goes up to a line end. -/
def skipTrivia : Nat → List Char → Option (List Char)
  | 0, _ => none
  | fuel + 1, cs =>
    let cs := skipSpaces cs
    match lineEnd? cs with
    | some rest => skipTrivia fuel rest
    | none =>
      match comment? cs with
      | none => some cs
      | some rest => do skipTrivia fuel (← lineEnd? rest)

def trivia? (cs : List Char) : Option (List Char) :=
  skipTrivia (cs.length + 1) cs

/-- The items up to the closing bracket; a comma may follow the last. Each item uses up a character, so
the length of the text is fuel enough. -/
def items? (value : List Char → Option (Toml × List Char)) :
    Nat → List Char → Option (List Toml × List Char)
  | 0, _ => none
  | fuel + 1, cs => do
    match ← trivia? cs with
    | ']' :: rest => return ([], rest)
    | cs =>
      let (item, rest) ← value cs
      match ← trivia? rest with
      | ',' :: rest =>
        let (items, rest) ← items? value fuel rest
        return (item :: items, rest)
      | ']' :: rest => return ([item], rest)
      | _ => none

/-- The members of a table written in one piece, up to its closing brace; no comma follows the last. -/
def members? (value : List Char → Option (Toml × List Char)) :
    Nat → List (String × Toml) → List Char → Option (List (String × Toml) × List Char)
  | 0, _, _ => none
  | fuel + 1, members, cs => do
    let (keys, rest) ← keys? cs
    let (item, rest) ← value (skipSpaces (← expect? '=' rest))
    let members ← define item keys members
    match skipSpaces rest with
    | ',' :: rest => members? value fuel members rest
    | '}' :: rest => return (members, rest)
    | _ => none

/-- A value that opens at most the given number of brackets inside one another. -/
def value? : Nat → List Char → Option (Toml × List Char)
  | 0, cs => scalar? cs
  | depth + 1, cs =>
    match cs with
    | '[' :: rest => do
      let (items, rest) ← items? (value? depth) (rest.length + 1) rest
      return (array items, rest)
    | '{' :: rest =>
      match skipSpaces rest with
      | '}' :: rest => some (table .closed [], rest)
      | rest => do
        let (members, rest) ← members? (value? depth) (rest.length + 1) [] rest
        return (table .closed members, rest)
    | cs => scalar? cs

end Etymon.Toml
