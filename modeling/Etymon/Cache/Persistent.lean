import Etymon.Files.Checksum
import Etymon.Json.Reader
import Etymon.Json.Record

/-!
# Persistent caches

A cache of entries that is kept in one JSON file between runs. It remembers the time and the checksum
of every source it depends on: a source with a new time but its old checksum only gets its time
renewed, and one with a new checksum drops every entry. Entries are bound to a settings text, too; a
file written under other settings counts for nothing.

## Main definitions

* `Codec`: how keys or values are written and read.
* `PersistentCache`: entries, stamps of the sources, and whether anything is unsaved.
* `PersistentCache.load`: the cache that a file holds, validated.
* `PersistentCache.revalidate`: renews times or drops entries.
* `PersistentCache.save`: writes the file if anything is unsaved.
-/

namespace Etymon

structure Codec (α : Type) where
  encode : α → Json
  decode? : Json → Option α

/-- Sources are known by their canonical paths. -/
structure PersistentCache (κ ν : Type) where
  path : Path
  sources : List Path
  settings : String
  entries : List (κ × ν)
  times : SortedMap Nat
  hashes : SortedMap String
  unsaved : Bool

namespace PersistentCache

variable {κ ν : Type}

/-! ## Entries -/

def size (c : PersistentCache κ ν) : Nat :=
  c.entries.length

section

variable [DecidableEq κ]

def get? (c : PersistentCache κ ν) (key : κ) : Option ν :=
  c.entries.lookup key

def contains (c : PersistentCache κ ν) (key : κ) : Bool :=
  (c.get? key).isSome

/-- Puts a value in the place of the key's older one, or at the end. -/
def setEntry (key : κ) (value : ν) : List (κ × ν) → List (κ × ν)
  | [] => [(key, value)]
  | entry :: rest =>
    if entry.1 = key then (key, value) :: rest else entry :: setEntry key value rest

def insert (c : PersistentCache κ ν) (key : κ) (value : ν) : PersistentCache κ ν :=
  { c with entries := setEntry key value c.entries, unsaved := true }

theorem lookup_setEntry_self (key : κ) (value : ν) (entries : List (κ × ν)) :
    (setEntry key value entries).lookup key = some value := by
  induction entries with
  | nil => simp [setEntry]
  | cons entry rest ih =>
    rw [setEntry]
    split
    · simp
    · next h =>
      rw [List.lookup_cons, beq_eq_false_iff_ne.2 (Ne.symm h)]
      exact ih

theorem lookup_setEntry_of_ne {key other : κ} (value : ν) (h : other ≠ key)
    (entries : List (κ × ν)) : (setEntry key value entries).lookup other = entries.lookup other := by
  have hbeq : (other == key) = false := beq_eq_false_iff_ne.2 h
  induction entries with
  | nil => simp [setEntry, List.lookup_cons, hbeq]
  | cons entry rest ih =>
    rw [setEntry]
    split
    · next heq => rw [List.lookup_cons, List.lookup_cons, hbeq, heq, hbeq]
    · rw [List.lookup_cons, List.lookup_cons, ih]

@[simp] theorem get?_insert_self (c : PersistentCache κ ν) (key : κ) (value : ν) :
    (c.insert key value).get? key = some value :=
  lookup_setEntry_self key value c.entries

theorem get?_insert_of_ne (c : PersistentCache κ ν) {key other : κ} (value : ν) (h : other ≠ key) :
    (c.insert key value).get? other = c.get? other :=
  lookup_setEntry_of_ne value h c.entries

end

/-! ## Sources -/

/-- The canonical path of a source; a source that does not exist keeps its own. -/
def sourceKey (files : FileStore) (p : Path) : String :=
  match files.canonical p with
  | .ok canonical => canonical.text
  | .error _ => p.text

/-- Takes the time and the checksum of one source after another, up to one that cannot be read. -/
def stampAll (files : FileStore) : List Path → PersistentCache κ ν →
    Except Error Unit × PersistentCache κ ν
  | [], c => (.ok (), c)
  | p :: rest, c =>
    let key := sourceKey files p
    let c := { c with times := c.times.insert key (files.modified p) }
    match files.checksum p with
    | .error e => (.error e, c)
    | .ok hash => stampAll files rest { c with hashes := c.hashes.insert key hash }

/-- Stamps every source as it is now. -/
def restamp (files : FileStore) (c : PersistentCache κ ν) :
    Except Error Unit × PersistentCache κ ν :=
  stampAll files c.sources { c with times := .empty, hashes := .empty }

/-- Whether the stamps are those of the sources. -/
def sameSources (files : FileStore) (c : PersistentCache κ ν) : Bool :=
  c.sources.length == c.hashes.size &&
    c.sources.all fun p => c.hashes.contains (sourceKey files p)

/-- The new times of the sources that were touched without a change; `none` when a source did change.
The checksum of a source is only taken when its time is new. -/
def renewals? (files : FileStore) (c : PersistentCache κ ν) :
    List Path → Except Error (Option (List (String × Nat)))
  | [] => .ok (some [])
  | p :: rest => do
    let key := sourceKey files p
    let time := files.modified p
    if c.times.get? key = some time then renewals? files c rest
    else if c.hashes.get? key = some (← files.checksum p) then
      return (← renewals? files c rest).map ((key, time) :: ·)
    else return none

/-- Drops every entry and stamps the sources anew; entries stay when a source cannot be read. -/
def evict (files : FileStore) (c : PersistentCache κ ν) : Except Error Bool × PersistentCache κ ν :=
  match c.restamp files with
  | (.error e, c) => (.error e, c)
  | (.ok (), c) => (.ok !c.entries.isEmpty, { c with entries := [], unsaved := true })

/-- Renews the times of touched sources, or drops every entry when a source has changed. Tells whether
entries were dropped. -/
def revalidate (files : FileStore) (c : PersistentCache κ ν) :
    Except Error Bool × PersistentCache κ ν :=
  if c.sameSources files then
    match c.renewals? files c.sources with
    | .error e => (.error e, c)
    | .ok none => c.evict files
    | .ok (some []) => (.ok false, c)
    | .ok (some renewed) =>
      let times := renewed.foldl (fun times item => times.insert item.1 item.2) c.times
      (.ok false, { c with times, unsaved := true })
  else c.evict files

/-- Drops every entry, then stamps the sources anew. -/
def clear (files : FileStore) (c : PersistentCache κ ν) : Except Error Unit × PersistentCache κ ν :=
  restamp files { c with entries := [], unsaved := true }

/-! ## The file -/

/-- The version of the file's layout; files of another version are not read. -/
def version : Int := 1

def mapToJson {α : Type} (encode : α → Json) (m : SortedMap α) : Json :=
  .object (m.items.map fun item => (item.1, encode item.2))

def mapOfJson? {α : Type} (decode : Json → Option α) : Json → Option (SortedMap α)
  | .object members => do
    return .ofList (← members.mapM fun m => return (m.1, ← decode m.2))
  | _ => none

def time? (value : Json) : Option Nat := do
  let n ← value.asInt?
  if 0 ≤ n ∧ n < 18446744073709551616 then some n.toNat else none

def version? (value : Json) : Option Int := do
  let n ← value.asInt?
  if 0 ≤ n ∧ n < 4294967296 then some n else none

def toJson (keys : Codec κ) (values : Codec ν) (c : PersistentCache κ ν) : Json :=
  .object [("version", .int version), ("settings", .string c.settings),
    ("entries", .array (c.entries.map fun e => .array [keys.encode e.1, values.encode e.2])),
    ("mtimes", mapToJson (fun n : Nat => .int n) c.times), ("hashes", mapToJson .string c.hashes)]

structure Saved (κ ν : Type) where
  settings : String
  entries : List (κ × ν)
  times : SortedMap Nat
  hashes : SortedMap String

/-- What a file of the current version holds; of several entries of a key the last one counts. -/
def saved? [DecidableEq κ] (keys : Codec κ) (values : Codec ν) (text : String) :
    Option (Saved κ ν) := do
  let file ← Json.parse? text
  if !file.hasArity 5 then none
  else
    let found ← file.required? version? 0 "version"
    let settings ← file.defaulted? Json.asString? "" 1 "settings"
    let items ← file.required? Json.asArray? 2 "entries"
    let entries ← items.mapM (Json.pair? keys.decode? values.decode?)
    let times ← file.required? (mapOfJson? time?) 3 "mtimes"
    let hashes ← file.required? (mapOfJson? Json.asString?) 4 "hashes"
    if found = version then
      some ⟨settings, entries.foldl (fun known e => setEntry e.1 e.2 known) [], times, hashes⟩
    else none

/-- The cache of a file as it was saved. A file that is missing or cannot be read counts as empty, and
so does one with other settings, which is to be written anew. -/
def ofFile [DecidableEq κ] (keys : Codec κ) (values : Codec ν) (files : FileStore) (path : Path)
    (sources : List Path) (settings : String) : PersistentCache κ ν :=
  let blank := ⟨path, sources, settings, [], .empty, .empty, false⟩
  match files.read path with
  | .error _ => blank
  | .ok text =>
    match saved? keys values text with
    | none => blank
    | some saved =>
      if saved.settings = settings then
        { blank with entries := saved.entries, times := saved.times, hashes := saved.hashes }
      else { blank with unsaved := true }

/-- The cache of a file, validated against its sources. Entries that cannot be validated are dropped. -/
def load [DecidableEq κ] (keys : Codec κ) (values : Codec ν) (files : FileStore) (path : Path)
    (sources : List Path) (settings : String) : PersistentCache κ ν :=
  match (ofFile keys values files path sources settings).revalidate files with
  | (.ok _, c) => c
  | (.error _, c) => { c with entries := [] }

/-- The directory of the cache's file. -/
def directory (c : PersistentCache κ ν) : Path :=
  match c.path.parent? with
  | some parent => if parent.text.isEmpty then ⟨"."⟩ else parent
  | none => ⟨"."⟩

/-- Writes the file, and the directory it lies in, if anything is unsaved. -/
def save (keys : Codec κ) (values : Codec ν) (files : FileStore) (c : PersistentCache κ ν) :
    Except Error Unit × FileStore × PersistentCache κ ν :=
  if c.unsaved then
    match files.createDirs c.directory with
    | (.error fault, files) => (.error (.io c.directory fault), files, c)
    | (.ok (), files) =>
      match files.replace c.path (c.toJson keys values).write with
      | .error fault => (.error (.io c.path fault), files, c)
      | .ok files => (.ok (), files, { c with unsaved := false })
  else (.ok (), files, c)

/-- Saves what can be saved when the cache is no longer needed. -/
def close (keys : Codec κ) (values : Codec ν) (files : FileStore) (c : PersistentCache κ ν) :
    FileStore :=
  (c.save keys values files).2.1

end PersistentCache

end Etymon
