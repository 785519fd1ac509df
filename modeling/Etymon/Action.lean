import Etymon.Error

/-!
# Actions

An action works on a state and may fail; the state it has reached stays when it fails.

## Main definitions

* `Action`: an action with a result.
* `Action.part`: an action on a part of the state.
-/

namespace Etymon

abbrev Action (σ α : Type) := ExceptT Error (StateM σ) α

namespace Action

/-- The outcome and the state reached from `s`. -/
def result {σ α : Type} (a : Action σ α) (s : σ) : Except Error α × σ :=
  a.run.run s

/-- The action whose outcome and state a function gives. -/
def ofFunction {σ α : Type} (f : σ → Except Error α × σ) : Action σ α :=
  ExceptT.mk (StateT.mk fun s => pure (f s))

@[simp] theorem result_ofFunction {σ α : Type} (f : σ → Except Error α × σ) (s : σ) :
    (ofFunction f).result s = f s := rfl

/-- An action that changes nothing. -/
def ofExcept {σ α : Type} (outcome : Except Error α) : Action σ α :=
  ofFunction fun s => (outcome, s)

/-- An action on the part of the state that `get` reads and `set` writes. -/
def part {σ τ α : Type} (get : σ → τ) (set : τ → σ → σ) (a : Action τ α) : Action σ α :=
  ofFunction fun s =>
    let (outcome, t) := a.result (get s)
    (outcome, set t s)

end Action

end Etymon
