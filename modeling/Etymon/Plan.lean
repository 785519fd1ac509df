import Etymon.Keys
import Etymon.Query

/-!
# Plans

The queries of a list of forms, and of everything they depend on, are sorted into layers that run one
after another; inside a layer, queries of one window share a request to the engine.

## Main definitions

* `Query.work`: the queries that one query brings about.
* `Batch`, `Layer`, `Plan`: queries of one window, of one round, and of a whole list of forms.
* `Plan.ofForms`: the plan for arranged forms.
-/

namespace Etymon

/-- No era comes before every era; eras are compared by name. -/
def eraLt : Option Era → Option Era → Bool
  | _, none => false
  | none, some _ => true
  | some a, some b => a.name < b.name

/-- Windows are compared by their starts, then by their stops. -/
def windowLt (a b : Option Era × Option Era) : Bool :=
  eraLt a.1 b.1 || (a.1 == b.1 && eraLt a.2 b.2)

/-- A root has to be evolved even when it has no era on either end. -/
def Query.isRootWork (q : Query) : Bool :=
  q.needsWork || (q.start.isNone && q.stop.isNone)

/-- The queries below a query that the engine has rules for, with the query itself if `included`;
dependencies come before what depends on them. -/
def Query.workBelow : Query → List Query
  | leaf .. => []
  | node _ head tail _ _ =>
    head.workBelow ++ (if head.needsWork then [head] else []) ++
      (tail.workBelow ++ (if tail.needsWork then [tail] else []))

/-- The queries that a root brings about. -/
def Query.work (root : Query) : List Query :=
  root.workBelow ++ (if root.isRootWork then [root] else [])

structure Batch where
  start : Option Era
  stop : Option Era
  queries : List Query
  deriving DecidableEq, Repr

structure Layer where
  index : Nat
  batches : List Batch
  deriving DecidableEq, Repr

/-- `roots` has one query for each form; the layers are to be run in order. -/
structure Plan where
  roots : List Query
  layers : List Layer
  deriving DecidableEq, Repr

/-- One batch for each window that occurs, in increasing order. -/
def batchesOf (queries : List Query) : List Batch :=
  (sortedKeys windowLt (queries.map Query.window)).map fun w =>
    ⟨w.1, w.2, queries.filter fun q => q.window = w⟩

/-- One layer for each layer number that occurs, in increasing order. -/
def layersOf (queries : List Query) : List Layer :=
  (sortedKeys (fun a b => decide (a < b)) (queries.map Query.layer)).map fun i =>
    ⟨i, batchesOf (queries.filter fun q => q.layer = i)⟩

namespace Plan

def queryCount (p : Plan) : Nat :=
  ((p.layers.flatMap Layer.batches).flatMap Batch.queries).length

def ofRoots (roots : List Query) : Plan :=
  ⟨roots, layersOf (distinct (roots.flatMap Query.work))⟩

def ofForms (order : RuleOrder) (forms : List Form) : Except Error Plan := do
  return ofRoots (← forms.mapM (Query.ofForm order))

end Plan

end Etymon
