import Etymon.Query
import Mathlib.Data.List.Basic

/-!
# Queries of forms

The sides of a node stop where the node starts, so a side has rules to go through exactly when its
evolved text is looked up.

## Main definitions

* `Query.Linked`: both sides of every node stop where the node starts.
* `Query.dependencies`: the queries whose evolved texts a query is assembled from.
* `Query.Needs`: one query cannot be assembled without the evolved text of another.

## Main results

* `Query.linked_of_ofForm`: queries of forms are linked.
* `Query.needs_iff`: a query needs its dependencies and nothing else.
* `Query.layer_lt_of_mem_dependencies`: dependencies lie in lower layers.
-/

namespace Etymon

namespace Query

/-! ## Building -/

theorem ofForm_leaf (order : RuleOrder) (m : Morpheme) :
    ofForm order (.leaf m) = .ok (leaf m.form m.era none) := rfl

/-- What a query of a join is made of. -/
theorem ofForm_join_eq_ok {order : RuleOrder} {h t : Form} {j : Joiner} {q : Query}
    (hq : ofForm order (.join h j t) = .ok q) :
    ∃ head tail, ofForm order h = .ok head ∧ ofForm order t = .ok tail ∧
      order.rank head.start ≤ order.rank j.era ∧ order.rank tail.start ≤ order.rank j.era ∧
      q = node j.stress (upTo j.era head) (upTo j.era tail) j.era none := by
  rw [ofForm] at hq
  cases hhead : ofForm order h with
  | error e => simp [hhead, bind, Except.bind] at hq
  | ok head =>
    cases htail : ofForm order t with
    | error e => simp [hhead, htail, bind, Except.bind] at hq
    | ok tail =>
      by_cases hh : order.rank j.era < order.rank head.start
      · simp [hhead, htail, checkAffixation, hh, bind, Except.bind] at hq
      · by_cases ht : order.rank j.era < order.rank tail.start
        · simp [hhead, htail, checkAffixation, hh, ht, bind, Except.bind] at hq
        · simp only [hhead, htail, checkAffixation, hh, ht, if_false, bind, Except.bind, pure,
            Except.pure, Except.ok.injEq] at hq
          exact ⟨head, tail, rfl, rfl, by omega, by omega, hq.symm⟩

theorem stop_of_ofForm {order : RuleOrder} {f : Form} {q : Query} (hq : ofForm order f = .ok q) :
    q.stop = none := by
  cases f with
  | leaf m =>
    rw [ofForm_leaf, Except.ok.injEq] at hq
    rw [← hq, stop]
  | join h j t =>
    obtain ⟨head, tail, -, -, -, -, rfl⟩ := ofForm_join_eq_ok hq
    rfl

@[simp] theorem start_upTo (joiner : Option Era) (side : Query) :
    (upTo joiner side).start = side.start := by
  cases joiner <;> simp [upTo]

theorem stop_upTo {joiner : Option Era} {side : Query} (h : side.stop = none) :
    (upTo joiner side).stop = joiner := by
  cases joiner <;> simp [upTo, h]

/-! ## Linked queries -/

/-- Both sides of every node stop where the node starts. -/
def Linked : Query → Prop
  | leaf .. => True
  | node _ head tail start _ => head.stop = start ∧ tail.stop = start ∧ head.Linked ∧ tail.Linked

theorem linked_withStop (stop : Option Era) (q : Query) : (q.withStop stop).Linked ↔ q.Linked := by
  cases q <;> rfl

theorem linked_upTo (joiner : Option Era) (side : Query) :
    (upTo joiner side).Linked ↔ side.Linked := by
  cases joiner with
  | none => rfl
  | some era => exact linked_withStop _ _

theorem linked_of_ofForm {order : RuleOrder} {f : Form} {q : Query}
    (hq : ofForm order f = .ok q) : q.Linked := by
  induction f generalizing q with
  | leaf m =>
    rw [ofForm_leaf, Except.ok.injEq] at hq
    rw [← hq]
    trivial
  | join h j t ihh iht =>
    obtain ⟨head, tail, hhead, htail, -, -, rfl⟩ := ofForm_join_eq_ok hq
    exact ⟨stop_upTo (stop_of_ofForm hhead), stop_upTo (stop_of_ofForm htail),
      (linked_upTo _ _).2 (ihh hhead), (linked_upTo _ _).2 (iht htail)⟩

/-! ## Dependencies -/

/-- The queries whose evolved texts are looked up when a query is assembled, in reading order. -/
def dependencies : Query → List Query
  | leaf .. => []
  | node _ head tail start _ =>
    (if head.start = start then head.dependencies else [head]) ++
      if tail.start = start then tail.dependencies else [tail]

/-- A side of a node that is looked up, or what a side that is assembled in place looks up. -/
theorem mem_dependencies_node {stress : Stress} {head tail : Query} {start stop : Option Era}
    {d : Query} : d ∈ (node stress head tail start stop).dependencies ↔
      (d ∈ if head.start = start then head.dependencies else [head]) ∨
        d ∈ if tail.start = start then tail.dependencies else [tail] := by
  rw [dependencies, List.mem_append]

theorem layer_lt_of_mem_dependencies {q d : Query} (h : d ∈ q.dependencies) :
    d.layer < q.layer := by
  induction q with
  | leaf form start stop => cases h
  | node stress head tail start stop ihh iht =>
    rw [layer, isDependent]
    rcases mem_dependencies_node.1 h with h | h
    · split at h
      · have := ihh h
        omega
      · next hne =>
        rw [List.mem_singleton] at h
        subst h
        simp only [bne_iff_ne.2 hne, Bool.true_or, Bool.toNat_true]
        omega
    · split at h
      · have := iht h
        omega
      · next hne =>
        rw [List.mem_singleton] at h
        subst h
        simp only [bne_iff_ne.2 hne, Bool.or_true, Bool.toNat_true]
        omega

end Query

/-! ## Assembling -/

section

variable {evolved evolved' : Query → Option String} {syllables : Bool}

/-- The text that a side gives to its node. -/
def sideText (evolved : Query → Option String) (syllables : Bool) (start : Option Era)
    (side : Query) : Except Error String :=
  if side.start = start then assemble evolved syllables side else assemble.lookup evolved side

theorem assemble_node {stress : Stress} {head tail : Query} {start stop : Option Era} :
    assemble evolved syllables (.node stress head tail start stop) = (do
      let headText ← sideText evolved syllables start head
      let tailText ← sideText evolved syllables start tail
      return combine stress headText tailText syllables) := by
  rw [assemble]
  unfold sideText
  split <;> split <;> rfl

/-- The text depends on the evolved texts of the dependencies alone. -/
theorem assemble_congr {q : Query} (h : ∀ d ∈ q.dependencies, evolved d = evolved' d) :
    assemble evolved syllables q = assemble evolved' syllables q := by
  induction q with
  | leaf form start stop => rfl
  | node stress head tail start stop ihh iht =>
    have hside : ∀ side : Query,
        (∀ d ∈ if side.start = start then side.dependencies else [side], evolved d = evolved' d) →
        ((∀ d ∈ side.dependencies, evolved d = evolved' d) →
          assemble evolved syllables side = assemble evolved' syllables side) →
        sideText evolved syllables start side = sideText evolved' syllables start side := by
      intro side hdep ih
      unfold sideText
      split at hdep
      · next heq => rw [if_pos heq, if_pos heq, ih hdep]
      · next hne => rw [if_neg hne, if_neg hne, assemble.lookup, assemble.lookup, hdep side (by simp)]
    rw [assemble_node, assemble_node, hside head _ ihh, hside tail _ iht]
    · exact fun d hd => h d (Query.mem_dependencies_node.2 (.inr hd))
    · exact fun d hd => h d (Query.mem_dependencies_node.2 (.inl hd))

/-- A query is assembled exactly when all its dependencies are evolved. -/
theorem isOk_assemble_iff {q : Query} : (assemble evolved syllables q).isOk = true ↔
    ∀ d ∈ q.dependencies, (evolved d).isSome := by
  induction q with
  | leaf form start stop => simp [assemble, Query.dependencies, Except.isOk, Except.toBool]
  | node stress head tail start stop ihh iht =>
    have hside : ∀ side : Query,
        ((assemble evolved syllables side).isOk = true ↔
          ∀ d ∈ side.dependencies, (evolved d).isSome) →
        ((sideText evolved syllables start side).isOk = true ↔
          ∀ d ∈ if side.start = start then side.dependencies else [side], (evolved d).isSome) := by
      intro side ih
      unfold sideText
      by_cases heq : side.start = start
      · rw [if_pos heq, if_pos heq, ih]
      · rw [if_neg heq, if_neg heq, assemble.lookup]
        cases hfound : evolved side <;> simp [hfound, Except.isOk, Except.toBool]
    have hnode : (assemble evolved syllables (.node stress head tail start stop)).isOk = true ↔
        (sideText evolved syllables start head).isOk = true ∧
          (sideText evolved syllables start tail).isOk = true := by
      rw [assemble_node]
      cases sideText evolved syllables start head <;>
        cases sideText evolved syllables start tail <;>
        simp [Except.isOk, Except.toBool, bind, Except.bind, pure, Except.pure]
    rw [hnode, hside head ihh, hside tail iht]
    simp only [Query.mem_dependencies_node]
    exact ⟨fun h d hd => hd.elim (h.1 d) (h.2 d),
      fun h => ⟨fun d hd => h d (.inl hd), fun d hd => h d (.inr hd)⟩⟩

theorem exists_assemble_eq_ok {q : Query} (h : ∀ d ∈ q.dependencies, (evolved d).isSome) :
    ∃ text, assemble evolved syllables q = .ok text := by
  have hok : (assemble evolved syllables q).isOk = true := isOk_assemble_iff.2 h
  cases htext : assemble evolved syllables q with
  | ok text => exact ⟨text, rfl⟩
  | error e => simp [htext, Except.isOk, Except.toBool] at hok

end

/-- A query can in no way be assembled without the evolved text of `d`. -/
def Query.Needs (q d : Query) : Prop :=
  ∀ evolved syllables text, assemble evolved syllables q = .ok text → (evolved d).isSome

theorem Query.needs_iff {q d : Query} : q.Needs d ↔ d ∈ q.dependencies := by
  constructor
  · intro hneeds
    by_contra hd
    obtain ⟨text, htext⟩ :
        ∃ text, assemble (fun x => if x = d then none else some "") false q = .ok text := by
      refine exists_assemble_eq_ok fun x hx => ?_
      have hne : x ≠ d := fun heq => hd (heq ▸ hx)
      simp [hne]
    simpa using hneeds _ _ _ htext
  · intro hd evolved syllables text htext
    exact isOk_assemble_iff.1 (by rw [htext]; rfl) d hd

end Etymon
