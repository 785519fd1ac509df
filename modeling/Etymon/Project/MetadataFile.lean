import Etymon.Failure
import Etymon.Files.Store
import Etymon.Project.Metadata
import Etymon.Toml.Document

/-!
# The metadata file

## Main definitions

* `Metadata.toText`: the text of the metadata file.
* `Metadata.ofText?`: the metadata that a text holds. Only the name has to be there.
* `Metadata.load`, `Metadata.save`: reading and writing the file.
-/

namespace Etymon.Metadata

def toText (m : Metadata) : String :=
  let scope := m.scope.toList.map fun s => ("scope", Toml.Plain.string s)
  let engine := m.engine.toList.map fun p => ("lexurgy", Toml.Plain.string p.text)
  Toml.write ([("name", .string m.name), ("author", .string m.author),
    ("syllables", .boolean m.syllables)] ++ scope ++ engine)

/-- The value under a key, if there is one; it has to be of the right kind. -/
def optional? {α : Type} (decode : Toml → Option α) (members : List (String × Toml)) (key : String) :
    Option (Option α) :=
  match members.lookup key with
  | none => some none
  | some value => (decode value).map some

def ofText? (text : String) : Option Metadata := do
  let members ← Toml.parse? text
  let name ← optional? Toml.asString? members "name"
  let author ← optional? Toml.asString? members "author"
  let syllables ← optional? Toml.asBoolean? members "syllables"
  let scope ← optional? Toml.asString? members "scope"
  let engine ← optional? Toml.asString? members "lexurgy"
  return ⟨← name, author.getD "", syllables.getD false, scope, engine.map Path.mk⟩

def load (files : FileStore) (path : Path) : Except Failure Metadata := do
  let text ← (Activity.read path).of ((files.read path).mapError .io)
  match ofText? text with
  | some m => return m
  | none => .error (.malformedMetadata path)

def save (files : FileStore) (path : Path) (m : Metadata) : Except Failure FileStore :=
  (Activity.write path).of ((files.write path m.toText).mapError .io)

end Etymon.Metadata
