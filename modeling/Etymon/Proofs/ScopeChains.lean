import Etymon.Lexicon
import Mathlib.Data.List.Chain
import Mathlib.Data.List.Nodup
import Mathlib.Data.List.Perm.Subperm
import Mathlib.Logic.Relation
import Mathlib.Logic.Relator

/-!
# Chains of scopes

The chain of a scope climbs from each scope to its parent, until a scope has no parent or its parent is on
the chain already. Declarations of parents may run in a circle; but each step of the climb adds a different
scope, so it ends before there are more scopes than declarations. It ends where the chain holds the parent
of each of its scopes, so no ancestor is missed.

## Main definitions

* `Lexicon.IsParent`: the parent that a list of declarations gives a child.
* `Lexicon.Closed`: scopes among which are their parents.
* `Lexicon.Linked`: a chain in which this is so up to the last scope.
* `Lexicon.Climbs`: the climb, with nothing that bounds it.
* `Lexicon.Ascends`: a chain that leads from a scope to its last one.

## Main results

* `Lexicon.Ascends.climbs_ancestors`: the bound that ancestors are collected with is never met.
* `Lexicon.Climbs.ascends`: what a climb keeps, and that it ends closed.
* `Lexicon.mem_scopeChain_iff`: a chain holds the ancestors and the root scope.
* `Lexicon.scopeChain_subset`: a scope on the chain of another has its own chain inside of that one.
-/

namespace Etymon

open Relation

theorem Scope.isRoot_iff {s : Scope} : s.isRoot = true ↔ s = .root := by
  cases s with
  | mk name => simp [isRoot, root]

namespace Lexicon

variable {lex : Lexicon} {parents : List (Scope × Scope)} {chain out out' : List Scope}
  {first last owner parent s t : Scope} {steps : Nat}

/-! ## Closed chains -/

/-- The parent of a child is the one that stands first. -/
def IsParent (parents : List (Scope × Scope)) (child parent : Scope) : Prop :=
  parents.lookup child = some parent

theorem isParent_rightUnique (parents : List (Scope × Scope)) :
    Relator.RightUnique (IsParent parents) :=
  fun _ _ _ h h' => Option.some.inj (h.symm.trans h')

/-- The parent of each scope is among the scopes. -/
def Closed (parents : List (Scope × Scope)) (scopes : List Scope) : Prop :=
  ∀ s ∈ scopes, ∀ parent ∈ parents.lookup s, parent ∈ scopes

/-- Ancestors stay among closed scopes. -/
theorem Closed.mem_of_reaches {scopes : List Scope} (h : Closed parents scopes) (hs : s ∈ scopes)
    (hreach : ReflTransGen (IsParent parents) s t) : t ∈ scopes := by
  induction hreach with
  | refl => exact hs
  | tail _ hparent ih => exact h _ ih _ hparent

theorem mem_keys_of_lookup {s parent : Scope} (h : parents.lookup s = some parent) :
    s ∈ parents.map Prod.fst := by
  obtain ⟨before, after, rfl, -⟩ := List.lookup_eq_some_iff.1 h
  simp

/-- Each scope of the chain but the last has a parent there. -/
def Linked (parents : List (Scope × Scope)) (chain : List Scope) (last : Scope) : Prop :=
  ∀ s ∈ chain, s ≠ last → ∃ parent ∈ chain, parents.lookup s = some parent

theorem Linked.closed (h : Linked parents chain last)
    (hlast : ∀ parent ∈ parents.lookup last, parent ∈ chain) : Closed parents chain := by
  intro s hs parent hparent
  by_cases heq : s = last
  · exact hlast parent (heq ▸ hparent)
  · obtain ⟨parent', hmem, hlookup⟩ := h s hs heq
    exact Option.some.inj (hlookup.symm.trans hparent) ▸ hmem

theorem Linked.snoc (h : Linked parents chain last) {parent : Scope}
    (hparent : parents.lookup last = some parent) : Linked parents (chain ++ [parent]) parent := by
  intro s hs hne
  have hs : s ∈ chain := by simpa [hne] using hs
  by_cases heq : s = last
  · exact ⟨parent, by simp, heq ▸ hparent⟩
  · obtain ⟨next, hnext, hlookup⟩ := h s hs heq
    exact ⟨next, List.mem_append_left _ hnext, hlookup⟩

/-- A chain that goes on has no more scopes than there are declarations. -/
theorem Linked.length_le (h : Linked parents chain last) (hnodup : chain.Nodup) {parent : Scope}
    (hparent : parents.lookup last = some parent) : chain.length ≤ parents.length := by
  have hkeys : chain ⊆ parents.map Prod.fst := by
    intro s hs
    by_cases heq : s = last
    · exact mem_keys_of_lookup (heq ▸ hparent)
    · obtain ⟨_, -, hlookup⟩ := h s hs heq
      exact mem_keys_of_lookup hlookup
  simpa using (List.subperm_of_subset hnodup hkeys).length_le

/-! ## Climbing -/

/-- A climb from the last scope of a chain, with the chain that it ends with: it goes on to the parent of
the last scope, until there is none or it is on the chain already. -/
inductive Climbs (isParent : Scope → Scope → Prop) : List Scope → Scope → List Scope → Prop
  | top {chain : List Scope} {last : Scope} (orphan : ∀ parent, ¬ isParent last parent) :
      Climbs isParent chain last chain
  | around {chain : List Scope} {last parent : Scope} (next : isParent last parent)
      (known : parent ∈ chain) : Climbs isParent chain last chain
  | up {chain out : List Scope} {last parent : Scope} (next : isParent last parent)
      (fresh : parent ∉ chain) (rest : Climbs isParent (chain ++ [parent]) parent out) :
      Climbs isParent chain last out

/-- There is one way to climb. -/
theorem Climbs.unique {isParent : Scope → Scope → Prop} (hunique : Relator.RightUnique isParent)
    (h : Climbs isParent chain last out) (h' : Climbs isParent chain last out') : out = out' := by
  induction h with
  | top orphan =>
    cases h' with
    | top _ => rfl
    | around _ _ => rfl
    | up next _ _ => exact absurd next (orphan _)
  | around next known =>
    cases h' with
    | top _ => rfl
    | around _ _ => rfl
    | up next' fresh _ => exact absurd (hunique next next' ▸ known) fresh
  | up next fresh _ ih =>
    cases h' with
    | top orphan => exact absurd next (orphan _)
    | around next' known => exact absurd (hunique next' next ▸ known) fresh
    | up next' _ rest =>
      obtain rfl := hunique next next'
      exact ih rest

/-- The chain leads from its first scope to its last one, from each scope to its parent, and comes to no
scope twice. -/
structure Ascends (parents : List (Scope × Scope)) (first : Scope) (chain : List Scope) (last : Scope) :
    Prop where
  head : chain.head? = some first
  final : chain.getLast? = some last
  isChain : chain.IsChain (IsParent parents)
  linked : Linked parents chain last
  nodup : chain.Nodup

theorem Ascends.start (parents : List (Scope × Scope)) (s : Scope) : Ascends parents s [s] s where
  head := rfl
  final := rfl
  isChain := .singleton s
  linked := by simp [Linked]
  nodup := List.nodup_singleton s

theorem Ascends.snoc (h : Ascends parents first chain last) (hparent : IsParent parents last parent)
    (hnew : parent ∉ chain) : Ascends parents first (chain ++ [parent]) parent where
  head := by rw [List.head?_append, h.head, Option.some_or]
  final := List.getLast?_concat
  isChain := h.isChain.append (.singleton parent) (by simpa [h.final] using hparent)
  linked := h.linked.snoc hparent
  nodup := List.concat_eq_append ▸ h.nodup.concat hnew

/-- What is on the chain is reached from its first scope. -/
theorem Ascends.reaches (h : Ascends parents first chain last) (ht : t ∈ chain) :
    ReflTransGen (IsParent parents) first t := by
  obtain ⟨rest, rfl⟩ := List.head?_eq_some_iff.1 h.head
  have hpairwise := List.isChain_iff_pairwise.1 (h.isChain.imp fun _ _ => ReflTransGen.single)
  rcases List.mem_cons.1 ht with rfl | ht
  · exact .refl
  · exact (List.pairwise_cons.1 hpairwise).1 t ht

/-- A climb ends before the steps are used up, so they do not bound it. -/
theorem Ascends.climbs_ancestors (h : Ascends parents first chain last)
    (hsteps : parents.length < steps + chain.length) :
    Climbs (IsParent parents) chain last (ancestors parents steps chain last) := by
  induction steps generalizing chain last with
  | zero =>
    -- Without steps left, the chain is too long for its last scope to have a parent.
    refine .top fun parent hparent => ?_
    have hle := h.linked.length_le h.nodup hparent
    omega
  | succ steps ih =>
    unfold ancestors
    split
    · next hnone => exact .top (by simp [IsParent, hnone])
    · next parent hparent =>
      split
      · next hknown => exact .around hparent (List.contains_iff_mem.1 hknown)
      · next hnew =>
        rw [List.contains_iff_mem] at hnew
        exact .up hparent hnew (ih (h.snoc hparent hnew) (by simp; omega))

/-- A climb that started well goes on well, and ends where the parent of its last scope is on the chain,
if there is one. -/
theorem Climbs.ascends (h : Climbs (IsParent parents) chain last out)
    (hchain : Ascends parents first chain last) :
    ∃ summit, Ascends parents first out summit ∧ Closed parents out := by
  induction h with
  | top orphan =>
    exact ⟨_, hchain, hchain.linked.closed fun parent hparent => absurd hparent (orphan parent)⟩
  | around next known =>
    refine ⟨_, hchain, hchain.linked.closed fun parent hparent => ?_⟩
    exact isParent_rightUnique parents next hparent ▸ known
  | up next fresh _ ih => exact ih (hchain.snoc next fresh)

/-! ## The chain of a scope -/

/-- The chain of a scope is what a climb from it ends with, and the root scope behind that, if it is not
there yet. -/
theorem exists_climb (lex : Lexicon) (s : Scope) : ∃ climbed summit,
    Climbs (IsParent lex.parents) [s] s climbed ∧
      Ascends lex.parents s climbed summit ∧ Closed lex.parents climbed ∧
      lex.scopeChain s = if .root ∈ climbed then climbed else climbed ++ [.root] := by
  have hclimbs : Climbs (IsParent lex.parents) [s] s (ancestors lex.parents lex.parents.length [s] s) :=
    (Ascends.start lex.parents s).climbs_ancestors (by simp)
  obtain ⟨summit, hascends, hclosed⟩ := hclimbs.ascends (.start lex.parents s)
  refine ⟨_, summit, hclimbs, hascends, hclosed, ?_⟩
  have hany : ∀ chain : List Scope, chain.any Scope.isRoot = true ↔ .root ∈ chain := by
    simp [List.any_eq_true, Scope.isRoot_iff]
  simp only [scopeChain, hany]

/-- A scope stands at the head of its chain. -/
theorem head?_scopeChain (lex : Lexicon) (s : Scope) : (lex.scopeChain s).head? = some s := by
  obtain ⟨climbed, summit, -, hascends, -, hchain⟩ := lex.exists_climb s
  rw [hchain]
  split
  · exact hascends.head
  · rw [List.head?_append, hascends.head, Option.some_or]

theorem nodup_scopeChain (lex : Lexicon) (s : Scope) : (lex.scopeChain s).Nodup := by
  obtain ⟨climbed, summit, -, hascends, -, hchain⟩ := lex.exists_climb s
  rw [hchain]
  split
  · exact hascends.nodup
  · next hroot => exact List.concat_eq_append ▸ hascends.nodup.concat hroot

/-- The chain of a scope holds the scope, its ancestors and the root scope. -/
theorem mem_scopeChain_iff :
    t ∈ lex.scopeChain s ↔ t = .root ∨ ReflTransGen (IsParent lex.parents) s t := by
  obtain ⟨climbed, summit, -, hascends, hclosed, hchain⟩ := lex.exists_climb s
  have hmem : t ∈ climbed ↔ ReflTransGen (IsParent lex.parents) s t :=
    ⟨hascends.reaches, hclosed.mem_of_reaches (List.mem_of_head? hascends.head)⟩
  rw [hchain, ← hmem]
  split
  · next hroot => exact ⟨.inr, fun h => h.elim (· ▸ hroot) id⟩
  · rw [List.mem_append, List.mem_singleton, or_comm]

theorem root_mem_scopeChain (lex : Lexicon) (scope : Scope) : .root ∈ lex.scopeChain scope :=
  mem_scopeChain_iff.2 (.inl rfl)

/-- Looking a name up from a scope on the chain of another leads through that chain only, if the root
scope, which stands at its end, has no parent. -/
theorem scopeChain_subset {scope : Scope} (hroot : lex.parents.lookup .root = none)
    (howner : owner ∈ lex.scopeChain scope) : lex.scopeChain owner ⊆ lex.scopeChain scope := by
  have horphan : ∀ parent, ¬ IsParent lex.parents .root parent := by simp [IsParent, hroot]
  intro t ht
  rcases mem_scopeChain_iff.1 ht with rfl | hreach
  · exact root_mem_scopeChain lex scope
  rcases mem_scopeChain_iff.1 howner with rfl | howner
  · rcases hreach.cases_head with rfl | ⟨parent, hparent, -⟩
    · exact root_mem_scopeChain lex scope
    · exact absurd hparent (horphan parent)
  · exact mem_scopeChain_iff.2 (.inr (howner.trans hreach))

end Lexicon

end Etymon
