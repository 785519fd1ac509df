import Etymon.Engine.Response
import Etymon.Files.Store

/-!
# Engines

An engine applies the rules of the sound-change file to the words of a request. It keeps a state of
its own between requests, and reads files when it starts.

## Main definitions

* `Engine`: how an engine answers and how it is reset.
* `Engine.recorded`: an engine that also keeps a record of what it was asked.
-/

namespace Etymon

structure Engine (σ : Type) where
  evolve : FileStore → Request → σ → Except Error Changed × σ
  reset : σ → σ

/-- The requests made to an engine, oldest first, and how often it was reset. -/
structure Calls where
  requests : List Request
  resets : Nat
  deriving DecidableEq, Repr

def Engine.recorded {σ : Type} (engine : Engine σ) : Engine (σ × Calls) where
  evolve files r s :=
    let (outcome, state) := engine.evolve files r s.1
    (outcome, state, { s.2 with requests := s.2.requests ++ [r] })
  reset s := (engine.reset s.1, { s.2 with resets := s.2.resets + 1 })

end Etymon
