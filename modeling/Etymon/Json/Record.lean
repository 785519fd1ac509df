import Etymon.Json

/-!
# Records in JSON

A record with named fields is written as an object. It is read from an object, whose other members
do not matter, or from an array that lists the fields in order.

## Main definitions

* `Json.field?`: what a record says about one field.
* `Json.required?`, `Json.optional?`, `Json.defaulted?`: the value of a field that must be there, that
  may be absent or null, and that has a default.
-/

namespace Etymon.Json

/-- The value of the field `name`, which is the field number `place`, if it is given; `none` for a
value that is no record or gives the field twice. -/
def field? (place : Nat) (name : String) : Json → Option (Option Json)
  | object members =>
    match members.filter fun m => m.1 = name with
    | [] => some none
    | [m] => some (some m.2)
    | _ => none
  | array items => some items[place]?
  | _ => none

/-- Whether a record has no more than `count` fields. -/
def hasArity (count : Nat) : Json → Bool
  | array items => items.length ≤ count
  | _ => true

def required? {α : Type} (decode : Json → Option α) (place : Nat) (name : String)
    (record : Json) : Option α := do
  decode (← ← record.field? place name)

def nullable? {α : Type} (decode : Json → Option α) : Json → Option (Option α)
  | null => some none
  | value => (decode value).map some

/-- Only an object may leave an optional field out. -/
def optional? {α : Type} (decode : Json → Option α) (place : Nat) (name : String)
    (record : Json) : Option (Option α) := do
  match ← record.field? place name, record with
  | some value, _ => nullable? decode value
  | none, object _ => some none
  | none, _ => none

def defaulted? {α : Type} (decode : Json → Option α) (default : α) (place : Nat) (name : String)
    (record : Json) : Option α := do
  match ← record.field? place name with
  | some value => decode value
  | none => some default

/-- A pair is an array of two items. -/
def pair? {α β : Type} (first : Json → Option α) (second : Json → Option β) :
    Json → Option (α × β)
  | array [a, b] => do return (← first a, ← second b)
  | _ => none

end Etymon.Json
