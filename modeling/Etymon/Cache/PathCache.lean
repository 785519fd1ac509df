import Etymon.Action
import Etymon.Files.Checksum

/-!
# Values cached by the files they depend on

A computed value is kept together with the checksums of the files it depends on, and computed again
when one of them has changed, appeared or disappeared.

## Main definitions

* `Memo`: a value with the checksums that its files had right after it was computed.
* `PathCache`: the memo, if there is one.
* `PathCache.get`: the value for given files.
* `PathCache.getTracked`: the value, when the computation itself finds out what it depends on.
* `PathCache.isFresh`: whether there is a memo and none of its files has changed.
-/

namespace Etymon

structure Memo (α : Type) where
  stamps : List (Path × String)
  value : α

abbrev PathCache (α : Type) := Option (Memo α)

namespace PathCache

/-- Each path with the checksum of its file. -/
def stamp (files : FileStore) (paths : List Path) : Except Error (List (Path × String)) :=
  paths.mapM fun p => return (p, ← files.checksum p)

/-- Whether every file has the checksum of its stamp. -/
def unchanged (files : FileStore) : List (Path × String) → Except Error Bool
  | [] => .ok true
  | (p, hash) :: rest => do
    if (← files.checksum p) = hash then unchanged files rest else return false

/-- Whether the stamps are those of the given paths, one by one. -/
def stampsOf (paths : List Path) (stamps : List (Path × String)) : Bool :=
  stamps.length == paths.length && (stamps.zip paths).all fun (stamped, p) => stamped.1.same p

def isFresh {α : Type} (files : FileStore) : PathCache α → Except Error Bool
  | none => .ok false
  | some memo => unchanged files memo.stamps

/-- The memo's value if `applies` allows it and its files are unchanged. -/
def valid? {α : Type} (files : FileStore) (applies : List (Path × String) → Bool) :
    PathCache α → Except Error (Option α)
  | none => .ok none
  | some memo => do
    if applies memo.stamps then
      if ← unchanged files memo.stamps then return some memo.value else return none
    else return none

variable {σ α : Type}

/-- The memo's value while it is valid; else a new one, computed and then stamped. A failure leaves the
cache as it was. `files` is where the state keeps its files. -/
def getWith (files : σ → FileStore) (applies : List (Path × String) → Bool)
    (compute : Action σ (α × List Path)) (cache : PathCache α) : Action σ (α × PathCache α) := do
  match ← Action.ofExcept (cache.valid? (files (← get)) applies) with
  | some value => return (value, cache)
  | none =>
    let (value, paths) ← compute
    let stamps ← Action.ofExcept (stamp (files (← get)) paths)
    return (value, some ⟨stamps, value⟩)

/-- The value for a fixed list of files. -/
def get (files : σ → FileStore) (paths : List Path) (compute : Action σ α)
    (cache : PathCache α) : Action σ (α × PathCache α) :=
  cache.getWith files (stampsOf paths) (do return (← compute, paths))

/-- The value of a computation that reports the files it depends on. -/
def getTracked (files : σ → FileStore) (compute : Action σ (α × List Path))
    (cache : PathCache α) : Action σ (α × PathCache α) :=
  cache.getWith files (fun _ => true) compute

end PathCache

end Etymon
