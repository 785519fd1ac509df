import Etymon.Files.Fault
import Etymon.Files.Path
import Etymon.Word

/-!
# Errors

Why reading, resolving, planning or evolving can fail: one constructor for each cause.

## Main definitions

* `Position`: a place in a lexicon file or in typed input.
* `Error`: a cause.
* `Error.kind`, `Error.message`: its label and its wording.
-/

namespace Etymon

/-- Lines and columns are counted from one; columns count characters of the logical line. -/
structure Position where
  path : Option Path
  line : Nat
  column : Nat
  deriving DecidableEq, Repr

def Position.render (p : Position) : String :=
  match p.path with
  | none => toString p.line ++ ":" ++ toString p.column
  | some path => path.text ++ ":" ++ toString p.line ++ ":" ++ toString p.column

/-- What can be defined twice. -/
inductive Definable where
  | lexeme (l : Lexeme)
  | affix (a : Affix)
  | template (name : String)
  deriving DecidableEq, Repr

def Definable.render : Definable → String
  | lexeme l => "lexeme " ++ l.render
  | affix a => "affix " ++ a.render
  | template name => "template &" ++ name

/-- How an engine's answer can break the dialogue's rules. -/
inductive Violation where
  | notJson
  | malformed (kind : String)
  | counts (sent modern phonetic : Nat)
  deriving DecidableEq, Repr

def Violation.message : Violation → String
  | notJson => "invalid JSON response"
  | malformed kind => "malformed " ++ kind ++ " response"
  | counts sent modern phonetic =>
    "sent " ++ toString sent ++ " words but received " ++ toString modern ++ " modern and " ++
      toString phonetic ++ " phonetic forms"

/-- The wording of an era that a form starts at or a joiner happens at. -/
def describeEra : Option Era → String
  | none => "no era"
  | some e => e.render

/-- What a cache lookup missed. -/
inductive CacheGap where
  | dependency (start : Option Era)
  | result
  | computation
  deriving DecidableEq, Repr

def CacheGap.message : CacheGap → String
  | dependency start => "no evolved form for dependency starting at " ++ describeEra start
  | result => "evolved form missing after evolution"
  | computation => "compute failed"

inductive Error where
  | parse (position : Position) (expected found : String)
  | missingLexeme (name : String) (scope : Scope)
  | missingAffix (affix : Affix) (scope : Scope)
  | missingTemplate (name : String)
  | cyclicDefinition (through : String)
  | formlessAffix (affix : Affix)
  | variableSources (affix : Affix) (sources : Nat)
  | badAffixation (joiner stem : Option Era)
  | repeatedTag (key : String)
  | duplicateDefinition (item : Definable) (scope : Scope)
  | unknownRule (era : Era)
  | evolve (reason : String) (stackTrace : List String)
  | untypedResponse (line : String)
  | unknownResponse (kind : String)
  | protocol (violation : Violation)
  | engineUnavailable (reason : String)
  | cache (gap : CacheGap)
  | io (path : Path) (fault : IoFault)
  deriving DecidableEq, Repr

namespace Error

def kind : Error → String
  | parse .. => "ParseError"
  | missingLexeme .. => "MissingLexeme"
  | missingAffix .. => "MissingAffix"
  | missingTemplate _ => "MissingTemplate"
  | cyclicDefinition _ => "CyclicDefinition"
  | formlessAffix _ => "AffixDefinitionMissingForm"
  | variableSources .. => "MissingVar"
  | badAffixation .. => "BadAffixation"
  | repeatedTag _ => "DoubleTagDefinition"
  | duplicateDefinition .. => "DuplicateDefinition"
  | unknownRule _ => "UnknownRule"
  | evolve .. => "EvolveError"
  | untypedResponse _ => "ResponseMissingType"
  | unknownResponse _ => "ResponseBadType"
  | protocol _ => "ProtocolError"
  | engineUnavailable _ => "EngineUnavailable"
  | cache _ => "CacheError"
  | io .. => "IoError"

def message : Error → String
  | parse position expected found =>
    "parse error at " ++ position.render ++ ": expected " ++ expected ++ ", found " ++ found
  | missingLexeme name scope => "missing lexeme <" ++ name ++ "> in scope " ++ scope.render
  | missingAffix affix scope => "missing affix " ++ affix.render ++ " in scope " ++ scope.render
  | missingTemplate name => "missing template &" ++ name
  | cyclicDefinition through => "cyclic definition through " ++ through
  | formlessAffix affix => "affix " ++ affix.render ++ " has neither a form nor source lexemes"
  | variableSources affix sources =>
    "affix " ++ affix.render ++ " uses a variable form but has " ++ toString sources ++
      " source lexemes (expected 1)"
  | badAffixation joiner stem =>
    "bad affixation: joiner at " ++ describeEra joiner ++ " attaches to a form that starts at " ++
      describeEra stem
  | repeatedTag key => "tag " ++ key ++ " is defined twice"
  | duplicateDefinition item scope =>
    item.render ++ " is defined twice in scope " ++ scope.render
  | unknownRule era => "unknown rule " ++ era.render
  | evolve reason _ => "sound-change engine error: " ++ reason
  | untypedResponse line => "engine response has no type: " ++ line
  | unknownResponse kind => "engine response has unknown type " ++ kind
  | protocol violation => "engine protocol violation: " ++ violation.message
  | engineUnavailable reason => "sound-change engine unavailable: " ++ reason
  | cache gap => "cache error: " ++ gap.message
  | io path fault => "io error on " ++ path.text ++ ": " ++ fault.message

/-- The label and the wording together, as they are shown to an author. -/
def describe (e : Error) : String :=
  e.kind ++ ": " ++ e.message

end Error

end Etymon
