import Etymon.Json.Reader
import Etymon.Json.Record
import Etymon.Query

/-!
# Queries in JSON

## Main definitions

* `Query.toJson`: the written form of a query, an object that names its kind.
* `Query.ofJson?`: the query that a value describes.
-/

namespace Etymon

def Era.toJson (era : Era) : Json := .string era.name

def Json.asEra? (value : Json) : Option Era :=
  value.asString?.map Era.mk

def encodeEra : Option Era → Json
  | none => .null
  | some era => era.toJson

namespace Stress

def toJson : Stress → Json
  | head => .string "head"
  | tail => .string "tail"

def ofName? : String → Option Stress
  | "head" => some head
  | "tail" => some tail
  | _ => none

/-- A stress is named by a text, or by the only member of an object, which is then null. -/
def ofJson? : Json → Option Stress
  | .string name => ofName? name
  | .object [(name, .null)] => ofName? name
  | _ => none

end Stress

namespace Query

def toJson : Query → Json
  | leaf form start stop =>
    .object [("kind", .string "leaf"), ("form", .string form), ("start", encodeEra start),
      ("end", encodeEra stop)]
  | node stress head tail start stop =>
    .object [("kind", .string "node"), ("stress", stress.toJson), ("head", head.toJson),
      ("tail", tail.toJson), ("start", encodeEra start), ("end", encodeEra stop)]

/-- The kind of a tagged value, and the rest of it. -/
def untag? : Json → Option (String × Json)
  | .object members => do
    match members.filter fun m => m.1 = "kind" with
    | [(_, kind)] => return (← kind.asString?, .object (members.filter fun m => m.1 ≠ "kind"))
    | _ => none
  | .array (kind :: fields) => do return (← kind.asString?, .array fields)
  | _ => none

/-- Reads a query that is nested at most `depth` deep. -/
def ofJsonWithin? : Nat → Json → Option Query
  | 0, _ => none
  | depth + 1, value => do
    let (kind, record) ← untag? value
    match kind with
    | "leaf" =>
      if !record.hasArity 3 then none
      else
        return leaf (← record.required? Json.asString? 0 "form")
          (← record.optional? Json.asEra? 1 "start") (← record.optional? Json.asEra? 2 "end")
    | "node" =>
      if !record.hasArity 5 then none
      else
        return node (← record.required? Stress.ofJson? 0 "stress")
          (← record.required? (ofJsonWithin? depth) 1 "head")
          (← record.required? (ofJsonWithin? depth) 2 "tail")
          (← record.optional? Json.asEra? 3 "start") (← record.optional? Json.asEra? 4 "end")
    | _ => none

/-- Brackets bound the nesting of every value that is read from a text. -/
def ofJson? (value : Json) : Option Query :=
  ofJsonWithin? (Json.maxDepth + 1) value

end Query

end Etymon
