import Etymon.Json
import Etymon.Text.Replace

/-!
# Tables of keys and values

The format of the metadata file: one key and its value a line, under headers that name tables.

## Main definitions

* `Toml`: a value. Numbers other than integers, and moments in time, keep their spelling.
* `Toml.Origin`: how a table came to be, which decides what may still be added to it.
* `Toml.quote`: a string as it is written.
* `Toml.write`: the lines of some keys with plain values.
-/

namespace Etymon

namespace Toml

/-- A table is opened by a header, implied by a header or by a dotted key that goes through it, or
written in one piece. -/
inductive Origin where
  | header
  | implied
  | dotted
  | closed
  deriving DecidableEq, Repr

end Toml

inductive Toml where
  | string (s : String)
  | integer (n : Int)
  | float (spelling : String)
  | boolean (b : Bool)
  | moment (spelling : String)
  | array (items : List Toml)
  | table (origin : Toml.Origin) (members : List (String × Toml))
  | tables (elements : List Toml)
  deriving Repr, Inhabited

namespace Toml

def asString? : Toml → Option String
  | string s => some s
  | _ => none

def asBoolean? : Toml → Option Bool
  | boolean b => some b
  | _ => none

/-! ## Writing strings -/

/-- Whether a character may stand in a string as it is; line feeds may, where a string has lines. -/
def isPlain (c : Char) : Bool :=
  c = '\t' || (0x20 ≤ c.toNat && c.toNat ≠ 0x7f)

def escape (c : Char) : List Char :=
  if c = '"' then ['\\', '"']
  else if c = '\\' then ['\\', '\\']
  else if c = '\n' then ['\\', 'n']
  else if c = '\t' then ['\\', 't']
  else if c = '\r' then ['\\', 'r']
  else if c.toNat = 0x8 then ['\\', 'b']
  else if c.toNat = 0xc then ['\\', 'f']
  else if isPlain c then [c]
  else
    ['\\', 'u', '0', '0', (Nat.digitChar (c.toNat / 16)).toUpper, (Nat.digitChar (c.toNat % 16)).toUpper]

/-- Whether a text can stand between single quotes: they do not come three in a row, nor last. -/
def fitsLiteral (cs : List Char) : Bool :=
  cs.all (fun c => isPlain c || c = '\n') && !Text.contains ['\'', '\'', '\''] cs &&
    cs.getLast? != some '\''

/-- A string with line feeds is written over several lines. One with double quotes or backslashes is
written without escapes if it can be. -/
def quote (s : String) : String :=
  let cs := s.toList
  let hasLines := cs.contains '\n'
  if (cs.contains '"' || cs.contains '\\') && fitsLiteral cs then
    if hasLines then "'''\n" ++ s ++ "'''"
    else if cs.contains '\'' then "'''" ++ s ++ "'''"
    else "'" ++ s ++ "'"
  else if hasLines then
    "\"\"\"\n" ++ String.ofList (cs.flatMap fun c => if c = '\n' then [c] else escape c) ++ "\"\"\""
  else "\"" ++ String.ofList (cs.flatMap escape) ++ "\""

/-! ## Writing lines -/

/-- A value that stands on the line of its key. -/
inductive Plain where
  | string (s : String)
  | boolean (b : Bool)
  deriving DecidableEq, Repr

def Plain.write : Plain → String
  | string s => quote s
  | boolean true => "true"
  | boolean false => "false"

def write (items : List (String × Plain)) : String :=
  String.join (items.map fun (key, value) => key ++ " = " ++ value.write ++ "\n")

end Toml

end Etymon
