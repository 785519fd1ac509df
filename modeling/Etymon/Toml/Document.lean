import Etymon.Toml.Value

/-!
# Reading documents

A document is a sequence of lines: a key with its value, the header of a table, or nothing but a
comment. A key belongs to the table whose header stands above it.

## Main definitions

* `Toml.openTable`, `Toml.openElement`: the document behind a header.
* `Toml.parse?`: the keys and values of a document.
-/

namespace Etymon.Toml

/-- The text behind the rest of a line that says nothing more. -/
def lineRest? (cs : List Char) : Option (List Char) :=
  let cs := skipSpaces cs
  match (comment? cs).getD cs with
  | [] => some []
  | cs => lineEnd? cs

/-! ## Headers -/

/-- Changes the table that a header's keys lead to; tables that are missing on the way are implied. In
an array of tables they lead to the last one. -/
def atHeader (change : List (String × Toml) → Option (List (String × Toml))) :
    List String → List (String × Toml) → Option (List (String × Toml))
  | [], members => change members
  | key :: rest, members =>
    let inside := atHeader change rest
    match members.lookup key with
    | none => (inside []).map fun inner => members ++ [(key, table .implied inner)]
    | some (table origin inner) =>
      if origin = .closed then none
      else (inside inner).map fun inner => put key (table origin inner) members
    | some (tables elements) =>
      (changeLast? (changeTable? inside) elements).map fun elements =>
        put key (tables elements) members
    | some _ => none

/-- A header opens a table that is missing or only implied. -/
def openTable (key : String) (members : List (String × Toml)) : Option (List (String × Toml)) :=
  match members.lookup key with
  | none => some (members ++ [(key, table .header [])])
  | some (table .implied inner) => some (put key (table .header inner) members)
  | some _ => none

/-- A header between double brackets opens the next table of an array. -/
def openElement (key : String) (members : List (String × Toml)) : Option (List (String × Toml)) :=
  match members.lookup key with
  | none => some (members ++ [(key, tables [table .header []])])
  | some (tables elements) => some (put key (tables (elements ++ [table .header []])) members)
  | some _ => none

/-! ## Lines -/

/-- What is known of a document, and the keys of the table that the next line belongs to. -/
structure Draft where
  members : List (String × Toml)
  current : List String

namespace Draft

def empty : Draft := ⟨[], []⟩

def define (d : Draft) (keys : List String) (value : Toml) : Option Draft := do
  return { d with members := ← atHeader (Toml.define value keys) d.current d.members }

def header (d : Draft) (opened : String → List (String × Toml) → Option (List (String × Toml)))
    (keys : List String) : Option Draft := do
  let key ← keys.getLast?
  return ⟨← atHeader (opened key) keys.dropLast d.members, keys⟩

/-- The draft after a line, and the text behind the line. -/
def line? (d : Draft) (cs : List Char) : Option (Draft × List Char) :=
  match cs with
  | '[' :: '[' :: cs => do
    let (keys, rest) ← keys? cs
    let rest ← expect? ']' (← expect? ']' rest)
    return (← d.header openElement keys, ← lineRest? rest)
  | '[' :: cs => do
    let (keys, rest) ← keys? cs
    return (← d.header openTable keys, ← lineRest? (← expect? ']' rest))
  | cs => do
    let (keys, rest) ← keys? cs
    let (value, rest) ← value? maxDepth (skipSpaces (← expect? '=' rest))
    return (← d.define keys value, ← lineRest? rest)

/-- The draft after all lines. Every line uses up a character, so the length of the text is fuel
enough. -/
def lines? : Nat → Draft → List Char → Option Draft
  | 0, _, _ => none
  | fuel + 1, d, cs =>
    match skipSpaces cs with
    | [] => some d
    | c :: cs =>
      if c = '#' || c = '\n' || c = '\r' then do lines? fuel d (← lineRest? (c :: cs))
      else do
        let (d, rest) ← d.line? (c :: cs)
        lines? fuel d rest

end Draft

/-- A mark of the byte order may open a text. -/
def dropByteOrderMark : List Char → List Char
  | c :: cs => if c.toNat = 0xfeff then cs else c :: cs
  | [] => []

def parse? (text : String) : Option (List (String × Toml)) :=
  let cs := dropByteOrderMark text.toList
  (Draft.lines? (cs.length + 1) .empty cs).map Draft.members

end Etymon.Toml
