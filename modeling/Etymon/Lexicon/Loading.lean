import Etymon.Files.Store
import Etymon.Lexicon
import Etymon.Reading.Record

/-!
# Loading lexicons

A lexicon is read from a root file and from every file that its records name. Records of an included
file belong to the scope of the record that includes it; records of a language's own file belong to
that language.

## Main definitions

* `Lexicon.define`: a lexicon with one more definition.
* `Lexicon.addRecord`: a lexicon after one record.
* `Lexicon.load`: the lexicon of a root file.
-/

namespace Etymon.Lexicon

/-- Adds a definition to those of its kind; a scope gives a name no more than one. -/
def define {κ α : Type} [BEq κ] (definitions : List (κ × α)) (key : κ) (value : α)
    (item : Definable) (scope : Scope) : Except Error (List (κ × α)) :=
  if (definitions.lookup key).isSome then .error (.duplicateDefinition item scope)
  else .ok (definitions ++ [(key, value)])

/-- The scope that an entry is stored under: the one on its headword, the one its tags name, or the
scope of its file. -/
def entryScope (e : Entry) (scope : Scope) : Scope :=
  e.lexeme.scope.getD (e.tags.scope?.getD scope)

def affixScope (d : AffixDefinition) (scope : Scope) : Scope :=
  d.tags.scope?.getD scope

def addEntry (lex : Lexicon) (e : Entry) (scope : Scope) : Except Error Lexicon := do
  let entries ← define lex.entries (scope, e.lexeme.name) e (.lexeme e.lexeme) scope
  return { lex with entries }

def addAffix (lex : Lexicon) (d : AffixDefinition) (scope : Scope) : Except Error Lexicon := do
  let affixes ← define lex.affixes (scope, d.affix) d (.affix d.affix) scope
  return { lex with affixes }

def addTemplate (lex : Lexicon) (t : Template) : Except Error Lexicon := do
  let templates ← define lex.templates t.name t (.template t.name) .root
  return { lex with templates }

/-- A path in a record is relative to the directory of the file it stands in. -/
def relativeTo (directory : Option Path) (path : String) : Path :=
  match directory with
  | some directory => directory.join ⟨path⟩
  | none => ⟨path⟩

/-- The lexicon after a record of a file with the given scope and directory; `loadFile` adds the
records of another file. -/
def addRecord (loadFile : Lexicon → Path → Scope → Except Error Lexicon) (scope : Scope)
    (directory : Option Path) (lex : Lexicon) : Record → Except Error Lexicon
  | .entry e => lex.addEntry e (entryScope e scope)
  | .affix d => lex.addAffix d (affixScope d scope)
  | .template t => lex.addTemplate t
  | .lang child parent none => .ok { lex with parents := (child, parent) :: lex.parents }
  | .lang child parent (some path) =>
    loadFile { lex with parents := (child, parent) :: lex.parents } (relativeTo directory path) child
  | .includes path => loadFile lex (relativeTo directory path) scope

/-- Adds the records of a file, and of the files it names, while the files at `reading` are being read.
These are pairwise different, so files nest no deeper than there are files. -/
def loadFile (files : FileStore) : Nat → List Location → Lexicon → Path → Scope → Except Error Lexicon
  | 0, _, _, path, _ => .error (.cyclicDefinition path.text)
  | depth + 1, reading, lex, path, scope => do
    let (location, _) ← (files.find path).mapError (.io path)
    if reading.contains location then .error (.cyclicDefinition path.text)
    else
      let text ← (files.read path).mapError (.io path)
      let records ← Record.parseAll (some path) text
      records.foldlM (addRecord (loadFile files depth (location :: reading)) scope path.parent?)
        { lex with sources := lex.sources ++ [path] }

def load (files : FileStore) (root : Path) : Except Error Lexicon :=
  loadFile files (files.nodes.length + 1) [] .empty root .root

end Etymon.Lexicon
