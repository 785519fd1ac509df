import Etymon.RuleOrder

/-!
# Arranging forms

A form is rebuilt so that its joins follow the order of the rules: the join that happens last becomes
the root, and so on downward. The reading order of morphemes and joiners stays.

## Main definitions

* `Link`: a joiner with its depth in the form and the morpheme to its right.
* `Form.links`: the first morpheme of a form, and a link for each joiner.
* `outranks`: when one link stands above another.
* `Form.arrange`: the rebuilt form.
-/

namespace Etymon

structure Link where
  depth : Nat
  joiner : Joiner
  leaf : Morpheme
  deriving DecidableEq, Repr

/-- The first morpheme, and the links in reading order; the root's joiner has the given depth. -/
def Form.links (depth : Nat) : Form → Morpheme × List Link
  | .leaf m => (m, [])
  | .join h j t =>
    let (first, left) := h.links (depth + 1)
    let (middle, right) := t.links (depth + 1)
    (first, left ++ ⟨depth, j, middle⟩ :: right)

/-- A later era comes first, then a shallower joiner. -/
def outranks (order : RuleOrder) (a b : Link) : Bool :=
  let rankA := order.rank a.joiner.era
  let rankB := order.rank b.joiner.era
  rankB < rankA || (rankA == rankB && a.depth < b.depth)

/-- Cuts links at the one that no other outranks, the leftmost of several. -/
def splitTop (order : RuleOrder) : List Link → Option (List Link × Link × List Link)
  | [] => none
  | link :: rest =>
    match splitTop order rest with
    | none => some ([], link, [])
    | some (before, top, after) =>
      if outranks order top link then some (link :: before, top, after)
      else some ([], link, rest)

theorem eq_of_splitTop {order : RuleOrder} {links before after : List Link} {top : Link}
    (h : splitTop order links = some (before, top, after)) :
    links = before ++ top :: after := by
  induction links generalizing before top after with
  | nil => simp [splitTop] at h
  | cons link rest ih =>
    rw [splitTop] at h
    split at h
    · next hnone =>
      cases rest with
      | nil => simp_all
      | cons next more =>
        rw [splitTop] at hnone
        split at hnone
        · simp at hnone
        · split at hnone <;> simp at hnone
    · next b t a hsome =>
      split at h
      · simp only [Option.some.injEq, Prod.mk.injEq] at h
        obtain ⟨rfl, rfl, rfl⟩ := h
        rw [ih hsome, List.cons_append]
      · simp only [Option.some.injEq, Prod.mk.injEq] at h
        obtain ⟨rfl, rfl, rfl⟩ := h
        rfl

def rebuild (order : RuleOrder) (first : Morpheme) (links : List Link) : Form :=
  match h : splitTop order links with
  | none => .leaf first
  | some (before, top, after) =>
    have _hlinks := congrArg List.length (eq_of_splitTop h)
    .join (rebuild order first before) top.joiner (rebuild order top.leaf after)
termination_by links.length
decreasing_by all_goals simp at _hlinks; omega

def Form.arrange (f : Form) (order : RuleOrder) : Form :=
  rebuild order (f.links 0).1 (f.links 0).2

end Etymon
