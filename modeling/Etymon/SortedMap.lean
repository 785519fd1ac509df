/-!
# Sorted maps

A map from texts to values, kept as a list in increasing order of its keys.

## Main definitions

* `SortedMap`: the map.
* `SortedMap.get?`, `SortedMap.insert`: reading and writing one key.
* `SortedMap.ofList`: the map of a list, in which later items win.
-/

namespace Etymon

/-- Puts an item at its place in a list sorted by keys, over an older item of the same key. -/
def insertSorted {α : Type} (key : String) (value : α) : List (String × α) → List (String × α)
  | [] => [(key, value)]
  | item :: rest =>
    if key < item.1 then (key, value) :: item :: rest
    else if key = item.1 then (key, value) :: rest
    else item :: insertSorted key value rest

section

variable {α : Type}

theorem mem_of_mem_insertSorted {key : String} {value : α} {items : List (String × α)}
    {item : String × α} (h : item ∈ insertSorted key value items) :
    item = (key, value) ∨ item ∈ items := by
  induction items with
  | nil => simpa [insertSorted] using h
  | cons first rest ih =>
    rw [insertSorted] at h
    split at h
    · simpa using h
    · split at h
      · rcases List.mem_cons.1 h with h | h
        · exact .inl h
        · exact .inr (by simp [h])
      · rcases List.mem_cons.1 h with rfl | h
        · exact .inr (by simp)
        · rcases ih h with h | h
          · exact .inl h
          · exact .inr (by simp [h])

theorem pairwise_insertSorted (key : String) (value : α) {items : List (String × α)}
    (h : items.Pairwise fun a b => a.1 < b.1) :
    (insertSorted key value items).Pairwise fun a b => a.1 < b.1 := by
  induction items with
  | nil => simp [insertSorted]
  | cons first rest ih =>
    obtain ⟨hfirst, hrest⟩ := List.pairwise_cons.1 h
    rw [insertSorted]
    split
    · next hlt =>
      refine List.pairwise_cons.2 ⟨fun item hitem => ?_, h⟩
      rcases List.mem_cons.1 hitem with rfl | hitem
      · exact hlt
      · exact String.lt_trans hlt (hfirst item hitem)
    · split
      · next _ heq =>
        exact List.pairwise_cons.2 ⟨fun item hitem => heq ▸ hfirst item hitem, hrest⟩
      · next hle hne =>
        refine List.pairwise_cons.2 ⟨fun item hitem => ?_, ih hrest⟩
        rcases mem_of_mem_insertSorted hitem with rfl | hitem
        · exact Std.lt_of_le_of_ne (String.not_lt.1 hle) (Ne.symm hne)
        · exact hfirst item hitem

theorem lookup_insertSorted_self (key : String) (value : α) (items : List (String × α)) :
    (insertSorted key value items).lookup key = some value := by
  induction items with
  | nil => simp [insertSorted]
  | cons first rest ih =>
    rw [insertSorted]
    split
    · simp
    · split
      · simp
      · next _ hne =>
        rw [List.lookup_cons, beq_eq_false_iff_ne.2 hne]
        exact ih

theorem lookup_insertSorted_of_ne {key other : String} (value : α) (h : other ≠ key)
    (items : List (String × α)) :
    (insertSorted key value items).lookup other = items.lookup other := by
  have hbeq : (other == key) = false := beq_eq_false_iff_ne.2 h
  induction items with
  | nil => simp [insertSorted, List.lookup_cons, hbeq]
  | cons first rest ih =>
    rw [insertSorted]
    split
    · rw [List.lookup_cons, hbeq]
    · split
      · next _ heq => rw [List.lookup_cons, List.lookup_cons, hbeq, ← heq, hbeq]
      · rw [List.lookup_cons, List.lookup_cons, ih]

theorem length_insertSorted_of_lookup_eq_none {key : String} (value : α)
    {items : List (String × α)} (h : items.lookup key = none) :
    (insertSorted key value items).length = items.length + 1 := by
  induction items with
  | nil => rfl
  | cons first rest ih =>
    rw [List.lookup_cons] at h
    rw [insertSorted]
    split
    · rfl
    · split
      · next _ heq => simp [heq] at h
      · next _ hne =>
        rw [beq_eq_false_iff_ne.2 hne] at h
        rw [List.length_cons, ih h, List.length_cons]

theorem length_insertSorted_le (key : String) (value : α) (items : List (String × α)) :
    (insertSorted key value items).length ≤ items.length + 1 := by
  induction items with
  | nil => exact Nat.le_refl _
  | cons first rest ih =>
    rw [insertSorted]
    split
    · exact Nat.le_refl _
    · split
      · exact Nat.le_succ _
      · simpa only [List.length_cons] using Nat.succ_le_succ ih

/-- An item behind all others is put at the end. -/
theorem insertSorted_of_forall_lt {key : String} (value : α) {items : List (String × α)}
    (h : ∀ item ∈ items, item.1 < key) : insertSorted key value items = items ++ [(key, value)] := by
  induction items with
  | nil => rfl
  | cons first rest ih =>
    obtain ⟨hfirst, hrest⟩ := List.forall_mem_cons.1 h
    have hne : key ≠ first.1 := fun heq => String.lt_irrefl _ (heq ▸ hfirst)
    rw [insertSorted, if_neg (String.lt_asymm hfirst), if_neg hne, ih hrest, List.cons_append]

theorem lookup_of_mem_of_pairwise {items : List (String × α)} {item : String × α}
    (h : items.Pairwise fun a b => a.1 < b.1) (hitem : item ∈ items) :
    items.lookup item.1 = some item.2 := by
  induction items with
  | nil => cases hitem
  | cons first rest ih =>
    obtain ⟨hfirst, hrest⟩ := List.pairwise_cons.1 h
    rcases List.mem_cons.1 hitem with rfl | hitem
    · rw [List.lookup_cons, beq_self_eq_true]
    · have hne : item.1 ≠ first.1 := by
        intro heq
        exact String.lt_irrefl _ (heq ▸ hfirst item hitem)
      rw [List.lookup_cons, beq_eq_false_iff_ne.2 hne]
      exact ih hrest hitem

end

structure SortedMap (α : Type) where
  items : List (String × α)
  sorted : items.Pairwise fun a b => a.1 < b.1
  deriving DecidableEq

namespace SortedMap

variable {α : Type}

def empty : SortedMap α := ⟨[], .nil⟩

instance : Inhabited (SortedMap α) := ⟨empty⟩

def isEmpty (m : SortedMap α) : Bool :=
  m.items.isEmpty

def size (m : SortedMap α) : Nat :=
  m.items.length

def get? (m : SortedMap α) (key : String) : Option α :=
  m.items.lookup key

def contains (m : SortedMap α) (key : String) : Bool :=
  (m.get? key).isSome

def insert (m : SortedMap α) (key : String) (value : α) : SortedMap α :=
  ⟨insertSorted key value m.items, pairwise_insertSorted key value m.sorted⟩

def ofList (items : List (String × α)) : SortedMap α :=
  items.foldl (fun m item => m.insert item.1 item.2) empty

@[simp] theorem get?_empty (key : String) : (empty : SortedMap α).get? key = none := rfl

@[simp] theorem get?_insert_self (m : SortedMap α) (key : String) (value : α) :
    (m.insert key value).get? key = some value :=
  lookup_insertSorted_self key value m.items

theorem get?_insert_of_ne (m : SortedMap α) {key other : String} (value : α) (h : other ≠ key) :
    (m.insert key value).get? other = m.get? other :=
  lookup_insertSorted_of_ne value h m.items

theorem get?_of_mem_items {m : SortedMap α} {item : String × α} (h : item ∈ m.items) :
    m.get? item.1 = some item.2 :=
  lookup_of_mem_of_pairwise m.sorted h

theorem get?_of_forall_lt {m : SortedMap α} {key : String}
    (h : ∀ item ∈ m.items, item.1 < key) : m.get? key = none := by
  refine List.lookup_eq_none_iff.2 fun item hitem => bne_iff_ne.2 fun heq => ?_
  exact String.lt_irrefl _ (heq ▸ h item hitem)

theorem contains_insert (m : SortedMap α) (key other : String) (value : α) :
    (m.insert key value).contains other = true ↔ other = key ∨ m.contains other = true := by
  by_cases h : other = key
  · simp [contains, h]
  · simp [contains, h, get?_insert_of_ne m value h]

theorem size_insert_of_not_contains {m : SortedMap α} {key : String} (value : α)
    (h : m.contains key = false) : (m.insert key value).size = m.size + 1 :=
  length_insertSorted_of_lookup_eq_none value
    (Option.isNone_iff_eq_none.1 (Option.isSome_eq_false_iff.1 h))

theorem size_insert_le (m : SortedMap α) (key : String) (value : α) :
    (m.insert key value).size ≤ m.size + 1 :=
  length_insertSorted_le key value m.items

end SortedMap

end Etymon
