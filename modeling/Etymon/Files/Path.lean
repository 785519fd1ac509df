import Etymon.Text.Split

/-!
# Paths

A path is the text that names a file; its segments lie between slashes. A path that starts with a
slash is absolute, any other is relative to the working directory.

## Main definitions

* `Path`: a path as it was written.
* `Path.join`: a path below another.
* `Path.parent?`: the path of the directory that holds a file.
* `Path.components`: what two spellings of the same path share.
-/

namespace Etymon

structure Path where
  text : String
  deriving DecidableEq, Repr, Inhabited

namespace Path

def segments (p : Path) : List String :=
  (Text.splitOn '/' p.text.toList).map String.ofList

def isAbsolute (p : Path) : Bool :=
  p.text.toList.head? = some '/'

/-- An absolute path stands for itself, also below another path. -/
def join (p q : Path) : Path :=
  if q.isAbsolute || p.text.isEmpty then q
  else if p.text.toList.getLast? = some '/' then ⟨p.text ++ q.text⟩
  else ⟨p.text ++ "/" ++ q.text⟩

/-- The path of a named file in the directory `p`. -/
def child (p : Path) (name : String) : Path :=
  p.join ⟨name⟩

/-- Whether a segment says nothing where it does not open the path. -/
def isSilent (segment : String) : Bool :=
  segment = "" || segment = "."

/-- The segments of a path of which the last one, if any, is its first or says something. -/
def dropSilent (reversed : List String) : List String :=
  match reversed with
  | [] => []
  | [first] => [first]
  | last :: rest => if isSilent last then dropSilent rest else last :: rest

/-- The path without its last component; `none` for the empty path and for the root. -/
def parent? (p : Path) : Option Path :=
  match dropSilent p.segments.reverse with
  | [] | [""] => none
  | [_] => some ⟨""⟩
  | _ :: rest =>
    match dropSilent rest with
    | [""] => some ⟨"/"⟩
    | kept => some ⟨Text.joinWith "/" kept.reverse⟩

/-- The segments that say something, after a mark for the root or for an opening dot. -/
def components (p : Path) : List String :=
  match p.segments with
  | [] => []
  | first :: rest =>
    let named := rest.filter fun segment => !isSilent segment
    if p.text.isEmpty then [] else first :: named

/-- Whether two paths are spellings of one path. -/
def same (p q : Path) : Bool :=
  p.components = q.components

/-- The last component when it names a file or directory. -/
def fileName? (p : Path) : Option String :=
  match p.components.reverse with
  | [] | [""] | ["."] => none
  | last :: _ => if last = ".." then none else some last

end Path

end Etymon
