import Etymon.Query.Encoding

/-!
# Requests to the engine

A request is one line of JSON: the words to evolve, the rules to start at and to stop before, and the
words whose changes are to be reported.

## Main definitions

* `Request`: what is asked for.
* `Request.line`: the line that is sent.
-/

namespace Etymon

structure Request where
  words : List String
  start : Option Era
  stop : Option Era
  traced : List String
  deriving DecidableEq, Repr

namespace Request

/-- A request that reports on every word, or on none. -/
def make (words : List String) (start stop : Option Era) (trace : Bool) : Request :=
  ⟨words, start, stop, if trace then words else []⟩

/-- A member that is left out without a value. -/
def eraMember (key : String) : Option Era → List (String × Json)
  | none => []
  | some era => [(key, .string era.name)]

def toJson (r : Request) : Json :=
  .object <|
    [("type", .string "evolve"), ("words", .array (r.words.map .string))] ++
      eraMember "startAt" r.start ++ eraMember "stopBefore" r.stop ++
      [("traceWords", .array (r.traced.map .string)), ("romanize", .bool true)]

def line (r : Request) : String :=
  r.toJson.write

end Request

end Etymon
