import Etymon.Book.Fragment
import Etymon.Workspace

/-!
# The page of a book

The book of a project becomes a web page in which every fragment stands as its evolved words. A
fragment that fails is reported and leaves a mark. The page is compiled anew when the book, the rule
file or a file of the lexicon has changed. How the text of a book is turned into markup is left open.

## Main definitions

* `Book.expand`: a text with its fragments replaced.
* `Book.renderWith`: the page of a project, and the files it depends on.
* `Book.compileWith`: writes the page.
* `Book.refreshWith`: writes the page unless it is known to be up to date.
-/

namespace Etymon.Book

open Text

variable {σ : Type}

/-! ## Fragments -/

/-- What stands for a fragment that failed. -/
def failureMark : String := "???"

def Shown.of (shown : Shown) (e : Evolved) : String :=
  match shown with
  | .modern => e.modern
  | .phonetic => e.phonetic
  | .proto => e.proto

/-- Words side by side; phonetic ones between slashes, and a star before those of the proto form. -/
def showWords (shown : Shown) (words : List Evolved) : String :=
  let joined := joinWith " " (words.map (Shown.of shown))
  match shown with
  | .modern => joined
  | .phonetic => "/" ++ joined ++ "/"
  | .proto => "*" ++ joined

def fragmentReport (f : Fragment) (e : Error) : String :=
  "fragment [[" ++ f.sentence ++ "]] failed: " ++ e.describe

/-- The text that stands for a fragment. -/
def expandFragment (engine : Engine σ) (f : Fragment) (w : Workspace σ) : String × Workspace σ :=
  match (Workspace.onSession fun files => Session.evolve engine files f.sentence).result w with
  | (.ok words, w) =>
    (String.ofList (escapeMarkdown (showWords f.shown words).toList), w)
  | (.error e, w) => (failureMark, w.report (fragmentReport f e))

def expandSpans (engine : Engine σ) : List Span → Workspace σ → List String × Workspace σ
  | [], w => ([], w)
  | .char c :: rest, w =>
    let (texts, w) := expandSpans engine rest w
    (c.toString :: texts, w)
  | .fragment f :: rest, w =>
    let (text, w) := expandFragment engine f w
    let (texts, w) := expandSpans engine rest w
    (text :: texts, w)

def expand (engine : Engine σ) (source : String) (w : Workspace σ) : String × Workspace σ :=
  let (texts, w) := expandSpans engine (spans source.toList) w
  (String.join texts, w)

/-! ## Pages -/

def page (title body : String) : String :=
  "<!DOCTYPE html>\n<html>\n<head>\n<meta charset=\"utf-8\">\n<title>" ++
    String.ofList (title.toList.flatMap escapeHtml) ++
    "</title>\n</head>\n<body>\n" ++ body ++ "</body>\n</html>\n"

/-- The book, the rule file and the root of the lexicon, then the files the lexicon was read from. -/
def dependencies (project : Project) (sources : List Path) : List Path :=
  sources.foldl (fun known p => if known.any (·.same p) then known else known ++ [p])
    [project.bookPath, project.changesPath, project.lexiconPath]

/-- The page of the book as its files are now, with the files it depends on. A lexicon that cannot be
loaded adds none. -/
def renderWith (toHtml : String → String) (engine : Engine σ) :
    Action (Workspace σ) (String × List Path) := do
  let w ← get
  let project := w.session.project
  let source ← Action.ofExcept ((w.files.read project.bookPath).mapError (.io project.bookPath))
  let text ← Action.ofFunction fun w =>
    let (text, w) := expand engine source w
    (.ok text, w)
  let sources ← Action.ofFunction fun w =>
    match (Workspace.onSession fun files => Session.currentLexicon files).result w with
    | (.ok lex, w) => (.ok lex.sources, w)
    | (.error _, w) => (.ok [], w)
  return (page w.session.metadata.name (toHtml text), dependencies project sources)

/-- Writes a page and gives its path. -/
def writePage (text : String) : Action (Workspace σ) Path :=
  .ofFunction fun w =>
    let path := w.session.project.pagePath
    match w.files.write path text with
    | .ok files => (.ok path, { w with files })
    | .error fault => (.error (.io path fault), w)

def compileWith (toHtml : String → String) (engine : Engine σ) : Action (Workspace σ) Path := do
  let (text, _) ← renderWith toHtml engine
  writePage text

/-! ## Keeping the page up to date -/

/-- A workspace with the page that was compiled last. -/
structure Press (σ : Type) where
  workspace : Workspace σ
  built : PathCache String

def onWorkspace {α : Type} (act : Action (Workspace σ) α) : Action (Press σ) α :=
  .part Press.workspace (fun workspace p => { p with workspace }) act

/-- Whether nothing has changed since the last page was compiled. -/
def isFresh : Action (Press σ) Bool := do
  let p ← get
  Action.ofExcept (PathCache.isFresh p.workspace.files p.built)

/-- Compiles and writes the page and saves the caches, unless the page is fresh. Tells whether it was
written. -/
def refreshWith (toHtml : String → String) (engine : Engine σ) : Action (Press σ) Bool := do
  if ← isFresh then return false
  else
    let p ← get
    let (text, built) ← onWorkspace
      (p.built.getTracked (fun w : Workspace σ => w.files) (renderWith toHtml engine))
    modify fun p => { p with built }
    let _ ← onWorkspace (writePage text)
    onWorkspace Workspace.flush
    return true

end Etymon.Book
