import Etymon.Error
import Etymon.Text.Blank
import Etymon.Text.Split

/-!
# Readers

A reader takes a value off the front of a text, or stops at the place where the text does not go on
as the notation wants it.

## Main definitions

* `ReadFault`: why a reader stopped, with the text from there on.
* `Reader`: a reader of values.
* `ReadFault.toError`: the error with the line and column of that place.
-/

namespace Etymon.Reading

open Text

inductive ReadFault where
  | expected (what : String) (rest : List Char)
  | repeatedTag (key : String)
  deriving DecidableEq, Repr

abbrev Reader (α : Type) := List Char → Except ReadFault (α × List Char)

/-- The character a reader stopped at. -/
def found : List Char → String
  | [] => "end of input"
  | c :: _ => "'" ++ String.singleton c ++ "'"

/-- The error for a fault in `text`, which is what the numbered line of a file holds. -/
def ReadFault.toError (path : Option Path) (line : Nat) (text : List Char) : ReadFault → Error
  | expected what rest =>
    .parse ⟨path, line, text.length - rest.length + 1⟩ what (found rest)
  | repeatedTag key => .repeatedTag key

def expect (c : Char) (what : String) : Reader Unit
  | d :: rest => if d = c then .ok ((), rest) else .error (.expected what (d :: rest))
  | [] => .error (.expected what [])

@[simp] theorem expect_cons_self (c : Char) (what : String) (rest : List Char) :
    expect c what (c :: rest) = .ok ((), rest) := by
  simp [expect]

/-- The longest run of characters in a class, which must not be empty. -/
def run (p : Char → Bool) (what : String) : Reader String := fun s =>
  match s.takeWhile p with
  | [] => .error (.expected what s)
  | name => .ok (String.ofList name, s.dropWhile p)

theorem run_append {p : Char → Bool} (what : String) {name rest : List Char} (hne : name ≠ [])
    (hname : ∀ c ∈ name, p c = true) (hrest : ∀ c ∈ rest.head?, p c = false) :
    run p what (name ++ rest) = .ok (String.ofList name, rest) := by
  rw [run, takeWhile_append_stop hname hrest, dropWhile_append_stop hname hrest]
  cases name with
  | nil => exact absurd rfl hne
  | cons c name => rfl

/-- Everything that is left, without outer blanks. -/
def remainder (s : List Char) : String :=
  String.ofList (trim s)

end Etymon.Reading
