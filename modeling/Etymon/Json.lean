import Etymon.SortedMap

/-!
# JSON values

The data format of the caches and of the dialogue with the sound-change engine. Members of an object
keep their order and may repeat a key.

## Main definitions

* `Json`: a value. Integers are exact; every other number keeps its spelling.
* `Json.write`: the compact text of a value.
* `Json.sorted`: a value whose objects list each key once, in increasing order, with its last value.
-/

namespace Etymon

inductive Json where
  | null
  | bool (b : Bool)
  | int (n : Int)
  | decimal (spelling : String)
  | string (s : String)
  | array (items : List Json)
  | object (members : List (String × Json))
  deriving Repr, Inhabited

namespace Json

/-- Control characters are escaped, by name where they have one; so are quotes and backslashes. -/
def escape (c : Char) : List Char :=
  if c = '"' then ['\\', '"']
  else if c = '\\' then ['\\', '\\']
  else if c = '\n' then ['\\', 'n']
  else if c = '\t' then ['\\', 't']
  else if c = '\r' then ['\\', 'r']
  else if c.toNat = 0x8 then ['\\', 'b']
  else if c.toNat = 0xc then ['\\', 'f']
  else if c.toNat < 0x20 then
    ['\\', 'u', '0', '0', Nat.digitChar (c.toNat / 16), Nat.digitChar (c.toNat % 16)]
  else [c]

def writeString (s : String) : String :=
  "\"" ++ String.ofList (s.toList.flatMap escape) ++ "\""

mutual

def write : Json → String
  | null => "null"
  | bool true => "true"
  | bool false => "false"
  | int n => toString n
  | decimal spelling => spelling
  | string s => writeString s
  | array items => "[" ++ writeItems items ++ "]"
  | object members => "\x7b" ++ writeMembers members ++ "\x7d"

def writeItems : List Json → String
  | [] => ""
  | [item] => write item
  | item :: items => write item ++ "," ++ writeItems items

def writeMembers : List (String × Json) → String
  | [] => ""
  | [(key, value)] => writeString key ++ ":" ++ write value
  | (key, value) :: members => writeString key ++ ":" ++ write value ++ "," ++ writeMembers members

end

mutual

def sorted : Json → Json
  | array items => array (sortedItems items)
  | object members => object (sortedMembers [] members)
  | value => value

def sortedItems : List Json → List Json
  | [] => []
  | item :: items => sorted item :: sortedItems items

def sortedMembers (done : List (String × Json)) : List (String × Json) → List (String × Json)
  | [] => done
  | (key, value) :: members => sortedMembers (insertSorted key (sorted value) done) members

end

/-! ## Looking into a value -/

def asString? : Json → Option String
  | string s => some s
  | _ => none

def asInt? : Json → Option Int
  | int n => some n
  | _ => none

def asBool? : Json → Option Bool
  | bool b => some b
  | _ => none

def asArray? : Json → Option (List Json)
  | array items => some items
  | _ => none

def asObject? : Json → Option (List (String × Json))
  | object members => some members
  | _ => none

/-- The last member of an object under a key. -/
def member? (key : String) : Json → Option Json
  | object members => (members.reverse.find? fun m => m.1 = key).map (·.2)
  | _ => none

def asStrings? (value : Json) : Option (List String) := do
  (← value.asArray?).mapM asString?

end Json

end Etymon
