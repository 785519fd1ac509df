import Etymon.LogicalLine
import Etymon.Reading.Sentence
import Etymon.Record

/-!
# Reading records

Each logical line of a lexicon file is one record, opened by its keyword.

## Main definitions

* `record`: a logical line as a record.
* `Record.parseAll`: the records of a file.
-/

namespace Etymon.Reading

open Text

/-- The patterns up to the end of the line. -/
def patterns : Nat → List Char → Except ReadFault (List Frame)
  | 0, _ => .ok []
  | fuel + 1, s =>
    match trimStart s with
    | [] => .ok []
    | s => do
      let (f, s) ← pattern s
      let rest ← patterns fuel s
      return f :: rest

def template (s : List Char) : Except ReadFault Template := do
  let (_, s) ← expect '&' "'&' template name" s
  let (name, s) ← run isIdentChar "template name" s
  let (bag, s) ← tags (trimStart s)
  match ← patterns (s.length + 1) s with
  | [] => .error (.expected "at least one variable" [])
  | found => return ⟨name, bag, found⟩

/-- The name of an affix with the dot on the side of the stem. -/
def marker : Reader Affix
  | '.' :: s => do
    let (name, s) ← run isIdentChar "suffix name" s
    return (.suf name, s)
  | s => do
    let (name, s) ← run isIdentChar "affix (.NAME or NAME.)" s
    let (_, s) ← expect '.' "'.' after prefix" s
    return (.pre name, s)

/-- The text up to the next blank. -/
def token (s : List Char) : List Char :=
  s.takeWhile fun c => !isBlank c

/-- Whether what stands here is a form and not a description. -/
def startsForm (s : List Char) : Bool :=
  (token s).head? != some '(' &&
    (token s).any fun c => c == '*' || c == '<' || c == '"' || c == '$'

def affixForm? : Reader (Option AffixForm) := fun s =>
  if !startsForm s then .ok (none, s)
  else if (token s).contains '$' then do
    let (f, s) ← pattern s
    return (some (.pattern f), s)
  else do
    let (w, s) ← word s
    return (some (.word w), s)

/-- An affix that names no era takes the era of the bare morpheme it consists of. -/
def liftEra : Option Era → Option AffixForm → Option Era × Option AffixForm
  | none, some (.word (.morpheme frame m)) =>
    if frame.isEmpty then (m.era, some (.word (.morpheme frame ⟨m.form, none⟩)))
    else (none, some (.word (.morpheme frame m)))
  | era, form => (era, form)

/-- The lexemes up to the closing parenthesis. -/
def sourcesWithin : Nat → Reader (List Lexeme)
  | 0, s => .error (.expected "'<' lexeme" s)
  | fuel + 1, s =>
    match trimStart s with
    | ')' :: s => .ok ([], s)
    | s => do
      let (l, s) ← lexeme s
      let (rest, s) ← sourcesWithin fuel s
      return (l :: rest, s)

/-- The source lexemes, if a parenthesis opens right in front of one. -/
def sources : Reader (List Lexeme)
  | '(' :: '<' :: s => sourcesWithin (s.length + 2) ('<' :: s)
  | s => .ok ([], s)

def affix (s : List Char) : Except ReadFault AffixDefinition := do
  let (stressed, s) := match s with
    | '!' :: s => (true, s)
    | s => (false, s)
  let (name, s) ← marker (trimStart s)
  let (bag, s) ← tags (trimStart s)
  let (era, s) ← era? (trimStart s)
  let (form, s) ← affixForm? (trimStart s)
  let (era, form) := liftEra era form
  let (origins, s) ← sources (trimStart s)
  return ⟨stressed, name, bag, era, form, origins, remainder s⟩

def templateName? : Reader (Option String)
  | '&' :: s => do
    let (name, s) ← run isIdentChar "template name" s
    return (some name, s)
  | s => .ok (none, s)

def entry (s : List Char) : Except ReadFault Entry := do
  let (name, s) ← templateName? s
  let (bag, s) ← tags (trimStart s)
  let (headword, s) ← lexeme (trimStart s)
  let (form, s) ← word s
  let (_, s) ← expect '(' "part of speech in parentheses" (trimStart s)
  let partOfSpeech := s.takeWhile (· != ')')
  let (_, s) ← expect ')' "')'" (s.dropWhile (· != ')'))
  return ⟨name, headword, bag, form, remainder partOfSpeech, remainder s⟩

/-- A text without the quotes at its ends. -/
def unquoted (s : List Char) : List Char :=
  ((s.dropWhile (· == '"')).reverse.dropWhile (· == '"')).reverse

def lang (s : List Char) : Except ReadFault Record := do
  let (child, s) ← scope s
  let (_, s) ← expect ':' "':' between scopes" (trimStart s)
  let (parent, s) ← scope (trimStart s)
  let path := unquoted (trim s)
  return .lang child parent (if path.isEmpty then none else some (String.ofList path))

def includes (s : List Char) : Except ReadFault Record := do
  let (path, s) ← match s with
    | '"' :: s => do
      let path := s.takeWhile (· != '"')
      let (_, s) ← expect '"' "closing '\"'" (s.dropWhile (· != '"'))
      pure (path, s)
    | s => .ok (trim s, [])
  if path.isEmpty then .error (.expected "include path" s)
  else return .includes (String.ofList path)

def isKeywordChar (c : Char) : Bool :=
  c.isAlpha

def record (line : List Char) : Except ReadFault Record :=
  let s := trimStart (line.dropWhile isKeywordChar)
  match String.ofList (line.takeWhile isKeywordChar) with
  | "template" => (template s).map .template
  | "affix" => (affix s).map .affix
  | "entry" => (entry s).map .entry
  | "lang" => lang s
  | "include" => includes s
  | _ => .error (.expected "record keyword (template, affix, entry, lang, include)" line)

end Etymon.Reading

namespace Etymon

/-- The records of a lexicon file; `path` names the file in errors. -/
def Record.parseAll (path : Option Path) (text : String) : Except Error (List Record) :=
  (logicalLines text.toList).mapM fun line =>
    (Reading.record line.text).mapError (·.toError path line.number line.text)

end Etymon
