import Etymon.Files.Fault
import Etymon.Files.Path
import Etymon.Keys

/-!
# File stores

A file store is a tree of directories and files as one process sees it. A path is followed segment
by segment from the root or from the working directory; every segment but the last has to lead to a
directory. Each write gives a file the time of the store's clock, which then advances.

## Main definitions

* `Location`: the names that lead from the root to a file or directory.
* `FileStore.locate`: where a path leads.
* `FileStore.node?`: what is at a location.
* `FileStore.read`, `FileStore.modified`: the text and the time of a file.
* `FileStore.write`, `FileStore.replace`, `FileStore.createDirs`, `FileStore.remove`: the changes.
* `FileStore.canonical`: the one absolute path of an existing file.
-/

namespace Etymon

/-- The names on the way from the root, outermost first. -/
abbrev Location := List String

structure StoredFile where
  text : String
  modified : Nat
  executable : Bool
  deriving DecidableEq, Repr

inductive Node where
  | file (f : StoredFile)
  | directory (modified : Nat)
  deriving DecidableEq, Repr

/-- `nodes` holds everything below the root; times are in nanoseconds. -/
structure FileStore where
  workDir : Location
  nodes : List (Location × Node)
  clock : Nat

namespace FileStore

/-- A store that holds the working directory and what leads to it. -/
def empty (workDir : Location) (clock : Nat) : FileStore :=
  { workDir
    nodes := (List.range workDir.length).map fun n => (workDir.take (n + 1), .directory clock)
    clock }

def node? (s : FileStore) : Location → Option Node
  | [] => some (.directory 0)
  | l => s.nodes.lookup l

def set (s : FileStore) (l : Location) (n : Node) : FileStore :=
  { s with nodes := (l, n) :: s.nodes.filter fun entry => entry.1 ≠ l }

theorem node?_set {s : FileStore} {l : Location} (n : Node) (hl : l ≠ []) :
    (s.set l n).node? l = some n := by
  cases l with
  | nil => exact absurd rfl hl
  | cons name rest => simp [node?, set]

theorem lookup_filter_of_ne {l l' : Location} (h : l' ≠ l) (entries : List (Location × Node)) :
    (entries.filter fun entry => entry.1 ≠ l).lookup l' = entries.lookup l' := by
  induction entries with
  | nil => rfl
  | cons entry entries ih =>
    obtain ⟨key, node⟩ := entry
    by_cases hkey : key = l
    · have hne : (l' == key) = false := beq_eq_false_iff_ne.2 (hkey ▸ h)
      rw [List.filter_cons_of_neg (by simpa using hkey), ih, List.lookup_cons, hne]
    · rw [List.filter_cons_of_pos (by simpa using hkey), List.lookup_cons, List.lookup_cons, ih]

theorem node?_set_of_ne {s : FileStore} {l l' : Location} (n : Node) (h : l' ≠ l) :
    (s.set l n).node? l' = s.node? l' := by
  cases l' with
  | nil => rfl
  | cons name rest =>
    simp only [node?, set, List.lookup_cons, beq_eq_false_iff_ne.2 h]
    exact lookup_filter_of_ne h s.nodes

/-! ## Following paths -/

/-- A segment leads from a directory to one of its members, to its parent, or nowhere else. -/
def step (here : Location) (segment : String) : Location :=
  if Path.isSilent segment then here
  else if segment = ".." then here.dropLast
  else here ++ [segment]

/-- Where the segments lead from `here`; every place they are followed from is a directory. -/
def follow (s : FileStore) (here : Location) : List String → Except IoFault Location
  | [] => .ok here
  | segment :: rest =>
    match s.node? here with
    | none => .error .notFound
    | some (.file _) => .error .notDirectory
    | some (.directory _) => s.follow (step here segment) rest

/-- The location of a path, which need not exist itself. -/
def locate (s : FileStore) (p : Path) : Except IoFault Location :=
  if p.text.isEmpty then .error .notFound
  else s.follow (if p.isAbsolute then [] else s.workDir) p.segments

def find (s : FileStore) (p : Path) : Except IoFault (Location × Node) := do
  let l ← s.locate p
  match s.node? l with
  | some n => return (l, n)
  | none => .error .notFound

def exists? (s : FileStore) (p : Path) : Bool :=
  (s.find p).toBool

def read (s : FileStore) (p : Path) : Except IoFault String := do
  match ← s.find p with
  | (_, .file f) => return f.text
  | (_, .directory _) => .error .isDirectory

/-- The last time that 64 bits can tell. -/
def maxTime : Nat := 18446744073709551615

/-- The time of the last change, cut to 64 bits; zero for a path that leads nowhere. -/
def modified (s : FileStore) (p : Path) : Nat :=
  match s.find p with
  | .ok (_, .file f) => min f.modified maxTime
  | .ok (_, .directory time) => min time maxTime
  | .error _ => 0

def absolute (l : Location) : Path :=
  ⟨"/" ++ Text.joinWith "/" l⟩

/-- The path without detours of something that exists. -/
def canonical (s : FileStore) (p : Path) : Except IoFault Path :=
  (s.find p).map fun found => absolute found.1

/-! ## Changes -/

/-- The next moment of the clock. -/
def tick (s : FileStore) : FileStore :=
  { s with clock := s.clock + 1 }

/-- Writes over a file, or a new one in an existing directory. -/
def write (s : FileStore) (p : Path) (text : String) : Except IoFault FileStore := do
  let l ← s.locate p
  match s.node? l with
  | some (.directory _) => .error .isDirectory
  | some (.file f) => return (s.set l (.file { f with text, modified := s.clock })).tick
  | none =>
    match s.node? l.dropLast with
    | some (.directory _) => return (s.set l (.file ⟨text, s.clock, false⟩)).tick
    | some (.file _) => .error .notDirectory
    | none => .error .notFound

/-- Puts a new file in the place of whatever file is there. -/
def replace (s : FileStore) (p : Path) (text : String) : Except IoFault FileStore := do
  let l ← s.locate p
  match s.node? l with
  | some (.directory _) => .error .isDirectory
  | _ => return (s.set l (.file ⟨text, s.clock, false⟩)).tick

/-- Follows segments and creates the directories that are missing; stops at the first file. -/
def createFrom (s : FileStore) (here : Location) :
    List String → Except IoFault Unit × FileStore
  | [] => (.ok (), s)
  | segment :: rest =>
    let next := step here segment
    match s.node? next with
    | some (.directory _) => s.createFrom next rest
    | some (.file _) =>
      (.error (if rest.all Path.isSilent then .exists else .notDirectory), s)
    | none => (s.set next (.directory s.clock)).tick.createFrom next rest

/-- Creates a directory and what leads to it. What was created before a fault stays. -/
def createDirs (s : FileStore) (p : Path) : Except IoFault Unit × FileStore :=
  s.createFrom (if p.isAbsolute then [] else s.workDir) p.segments

/-- Removes a file, or a directory with everything in it. -/
def remove (s : FileStore) (p : Path) : Except IoFault FileStore := do
  let (l, _) ← s.find p
  return { s with nodes := s.nodes.filter fun entry => !l.isPrefixOf entry.1 }

/-- Removes a directory with everything in it. -/
def removeDir (s : FileStore) (p : Path) : Except IoFault FileStore := do
  match ← s.find p with
  | (_, .file _) => .error .notDirectory
  | (_, .directory _) => s.remove p

/-! ## Listing -/

/-- The files below the working directory by their relative paths, in increasing order. -/
def listing (s : FileStore) : List String :=
  let below := s.nodes.filterMap fun entry =>
    match entry.2, s.workDir.isPrefixOf? entry.1 with
    | .file _, some relative => some (Text.joinWith "/" relative)
    | _, _ => none
  sortedKeys (fun a b => decide (a < b)) below

end FileStore

end Etymon
