/-!
# Distinct and sorted keys

## Main definitions

* `distinct`: the items of a list, each once, at its first place.
* `firstOfEach`: the first pair for each key.
* `sortedKeys`: the items of a list, each once, in increasing order.
-/

namespace Etymon

variable {α β : Type} [DecidableEq α]

def distinct : List α → List α
  | [] => []
  | a :: rest => a :: (distinct rest).filter (· ≠ a)

theorem mem_distinct {a : α} {items : List α} : a ∈ distinct items ↔ a ∈ items := by
  induction items with
  | nil => simp [distinct]
  | cons b rest ih =>
    by_cases h : a = b <;> simp [distinct, ih, h]

theorem nodup_distinct (items : List α) : (distinct items).Nodup := by
  induction items with
  | nil => simp [distinct]
  | cons a rest ih =>
    rw [distinct, List.nodup_cons]
    exact ⟨by simp, ih.filter _⟩

def firstOfEach : List (α × β) → List (α × β)
  | [] => []
  | pair :: rest => pair :: (firstOfEach rest).filter fun other => other.1 ≠ pair.1

/-- The keys that are left are those of `distinct`. -/
theorem map_fst_firstOfEach (pairs : List (α × β)) :
    (firstOfEach pairs).map Prod.fst = distinct (pairs.map Prod.fst) := by
  induction pairs with
  | nil => rfl
  | cons pair rest ih =>
    rw [firstOfEach, List.map_cons, List.map_cons, distinct, ← ih, List.filter_map]
    rfl

/-- Puts a key at its place among increasing ones, unless it is there. -/
def insertKey (lt : α → α → Bool) (a : α) : List α → List α
  | [] => [a]
  | b :: rest =>
    if lt a b then a :: b :: rest
    else if a = b then b :: rest
    else b :: insertKey lt a rest

def sortedKeys (lt : α → α → Bool) (items : List α) : List α :=
  items.foldr (insertKey lt) []

theorem mem_insertKey {lt : α → α → Bool} {a b : α} {items : List α} :
    b ∈ insertKey lt a items ↔ b = a ∨ b ∈ items := by
  induction items with
  | nil => simp [insertKey]
  | cons c rest ih =>
    rw [insertKey]
    split
    · simp
    · split
      · next _ heq => simp [heq]
      · simp only [List.mem_cons, ih]
        exact or_left_comm

theorem mem_sortedKeys {lt : α → α → Bool} {a : α} {items : List α} :
    a ∈ sortedKeys lt items ↔ a ∈ items := by
  induction items with
  | nil => simp [sortedKeys]
  | cons b rest ih =>
    have : sortedKeys lt (b :: rest) = insertKey lt b (sortedKeys lt rest) := rfl
    rw [this, mem_insertKey, ih, List.mem_cons]

end Etymon
