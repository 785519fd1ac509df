import Etymon.Project
import Etymon.Word

/-!
# Metadata of a project

## Main definitions

* `Metadata`: what a project says about itself.
* `Metadata.defaultScope`: the scope of input that names none.
-/

namespace Etymon

/-- With `syllables`, the morphemes of a form are joined by dots; `engine` is the directory that a
sound-change engine is installed in. -/
structure Metadata where
  name : String
  author : String
  syllables : Bool
  scope : Option String
  engine : Option Path
  deriving DecidableEq, Repr

def Metadata.defaultScope (m : Metadata) : Scope :=
  match m.scope with
  | some name => ⟨name⟩
  | none => .root

end Etymon
