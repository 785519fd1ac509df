import Etymon.Text.Blank
import Etymon.Text.Lines

/-!
# Logical lines

A lexicon file is a sequence of logical lines, one record each. A physical line loses its comment
(from the first `#`), a backslash that ends what is left, and its outer blanks. It goes on with the
logical line before it when it starts with a blank or follows a line that ended in a backslash.

## Main definitions

* `PhysicalLine`: what one line of the file contributes.
* `Piece`: the content of a physical line that has any, with its number.
* `LogicalLine`: a run of pieces, joined by single spaces and numbered by its first.
* `logicalLines`: the logical lines of a text.
-/

namespace Etymon

open Text

structure PhysicalLine where
  content : List Char
  indented : Bool
  continues : Bool
  deriving DecidableEq, Repr

/-- What is left before a closing backslash, if there is one before the last blanks. -/
def beforeBackslash? (cs : List Char) : Option (List Char) :=
  match (trimEnd cs).reverse with
  | '\\' :: rest => some rest.reverse
  | _ => none

def PhysicalLine.ofText (raw : List Char) : PhysicalLine :=
  let uncommented := raw.takeWhile (· ≠ '#')
  let body := (beforeBackslash? uncommented).getD uncommented
  { content := trim body
    indented := body.head?.any isBlank
    continues := (beforeBackslash? uncommented).isSome }

structure Piece where
  number : Nat
  attached : Bool
  content : List Char
  deriving DecidableEq, Repr

/-- The pieces of the lines from `number` on; `continued` tells that the line before them ended in a
backslash. -/
def pieces (number : Nat) (continued : Bool) : List PhysicalLine → List Piece
  | [] => []
  | line :: rest =>
    let following := pieces (number + 1) line.continues rest
    if line.content.isEmpty then following
    else ⟨number, continued || line.indented, line.content⟩ :: following

/-- Cuts pieces into runs: each run but the first starts with the next piece that is not attached. -/
def runs : List Piece → List (Piece × List Piece)
  | [] => []
  | piece :: rest =>
    match runs rest with
    | [] => [(piece, [])]
    | (next, more) :: following =>
      if next.attached then (piece, next :: more) :: following
      else (piece, []) :: (next, more) :: following

structure LogicalLine where
  number : Nat
  text : List Char
  deriving DecidableEq, Repr

def LogicalLine.ofRun (run : Piece × List Piece) : LogicalLine :=
  ⟨run.1.number, run.1.content ++ run.2.flatMap fun piece => ' ' :: piece.content⟩

def logicalLines (text : List Char) : List LogicalLine :=
  (runs (pieces 1 false ((lines text).map .ofText))).map .ofRun

/-- Cutting into runs keeps every piece, in order. -/
theorem flatMap_runs (ps : List Piece) : (runs ps).flatMap (fun r => r.1 :: r.2) = ps := by
  induction ps with
  | nil => rfl
  | cons p ps ih =>
    rw [runs]
    split
    · next h => rw [h] at ih; simp_all
    · next next more following h =>
      rw [h] at ih
      split <;> simp_all

/-- Inside a run every piece after the first is attached. -/
theorem attached_of_mem_runs {ps : List Piece} {r : Piece × List Piece} (h : r ∈ runs ps) :
    ∀ p ∈ r.2, p.attached = true := by
  induction ps generalizing r with
  | nil => simp [runs] at h
  | cons p ps ih =>
    rw [runs] at h
    split at h
    · simp_all
    · next next more following heq =>
      rw [heq] at ih
      split at h
      · rcases List.mem_cons.1 h with rfl | h
        · simp_all
        · exact ih (by simp [h])
      · rcases List.mem_cons.1 h with rfl | h
        · simp
        · exact ih h

end Etymon
