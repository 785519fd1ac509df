import Etymon.Proofs.LoadedLexicon
import Etymon.Proofs.NamedLexemes
import Etymon.Proofs.ScopeChains

/-!
# The ancestors of a language variety

The records of a language give it a parent, and of several such records the last one counts. A lexicon
keeps what they declare, however the declarations lead up or around; the root scope has no name that a
record could write, so it is neither a child nor a parent, and stands behind all other scopes of a chain.

## Main definitions

* `Lexicon.parentOf`: the child and the parent that a record declares.
* `Lexicon.LastParent`: the parent that a child is declared to have last.

## Main results

* `Lexicon.lastParent_iff`: a lexicon keeps the last parents of the records that it was loaded from.
* `Lexicon.exists_scopeChain_eq`: the line of ancestors in front of the root scope.
* `Lexicon.scopeChain_characterized`: the chains of a loaded lexicon.
-/

namespace Etymon

open Relation

namespace Lexicon

variable {files : FileStore} {path : Path} {lex : Lexicon} {items : List (Scope × Record)}
  {sources : List Path} {child parent s t : Scope}

/-! ## Declared parents -/

/-- What a record of a language declares: a child and its parent. -/
def parentOf : Scope × Record → Option (Scope × Scope)
  | (_, .lang child parent _) => some (child, parent)
  | _ => none

/-- Of the declarations for the child, the last one names the parent. -/
def LastParent (items : List (Scope × Record)) (child parent : Scope) : Prop :=
  ∃ before after, items.filterMap parentOf = before ++ (child, parent) :: after ∧
    ∀ later ∈ after, later.1 ≠ child

theorem parents_foldl_withItem :
    (items.foldl withItem lex).parents = (items.filterMap parentOf).reverse ++ lex.parents := by
  induction items generalizing lex with
  | nil => rfl
  | cons item items ih =>
    obtain ⟨scope, record⟩ := item
    rw [List.foldl_cons, ih]
    cases record with
    | lang child parent path => simp [withItem, parentOf]
    | _ => rfl

/-- The declarations stand in a lexicon from the last one to the first. -/
theorem isParent_reverse_iff :
    IsParent (items.filterMap parentOf).reverse child parent ↔ LastParent items child parent := by
  rw [IsParent, List.lookup_eq_some_iff]
  constructor
  · rintro ⟨after, before, heq, hafter⟩
    refine ⟨before.reverse, after.reverse, ?_, fun later hlater => ?_⟩
    · rw [← List.reverse_reverse (items.filterMap parentOf), heq]
      simp
    · exact (bne_iff_ne.1 (hafter later (List.mem_reverse.1 hlater))).symm
  · rintro ⟨before, after, heq, hafter⟩
    refine ⟨after.reverse, before.reverse, by simp [heq], fun later hlater => ?_⟩
    exact bne_iff_ne.2 (hafter later (List.mem_reverse.1 hlater)).symm

/-- The parents of a loaded lexicon are those that its records declare last. -/
theorem lastParent_iff (hlex : lex = (items.foldl withItem .empty).afterReading sources) :
    IsParent lex.parents child parent ↔ LastParent items child parent := by
  have hparents : lex.parents = (items.filterMap parentOf).reverse := by
    rw [hlex, afterReading, parents_foldl_withItem]
    exact List.append_nil _
  rw [hparents, isParent_reverse_iff]

theorem ne_root_of_isName {p : Char → Bool} (h : IsName p s.name) : s ≠ .root :=
  fun heq => h.1 (heq ▸ rfl)

/-- A record names neither a child nor a parent by the empty name of the root scope. -/
theorem Inlines.ne_root {reading : List Location}
    (h : Inlines files reading (.file path s) items sources)
    (hparent : LastParent items child parent) : child ≠ .root ∧ parent ≠ .root := by
  obtain ⟨before, after, heq, -⟩ := hparent
  have hmem : (child, parent) ∈ items.filterMap parentOf := by simp [heq]
  obtain ⟨⟨scope, record⟩, hitem, hdeclares⟩ := List.mem_filterMap.1 hmem
  have hlegible := h.legible trivial _ hitem
  cases record with
  | lang c p more =>
    simp only [parentOf, Option.some.injEq, Prod.mk.injEq] at hdeclares
    obtain ⟨rfl, rfl⟩ := hdeclares
    exact ⟨ne_root_of_isName hlegible.1, ne_root_of_isName hlegible.2⟩
  | _ => simp [parentOf] at hdeclares

/-! ## Chains that end with the root scope -/

/-- The root scope is neither the child nor the parent of another one. -/
def Rootless (parents : List (Scope × Scope)) : Prop :=
  ∀ child parent, IsParent parents child parent → child ≠ .root ∧ parent ≠ .root

theorem Rootless.lookup_root {parents : List (Scope × Scope)} (h : Rootless parents) :
    parents.lookup .root = none :=
  Option.eq_none_iff_forall_ne_some.2 fun parent hparent => (h .root parent hparent).1 rfl

/-- Who follows parents from another scope does not come to the root scope. -/
theorem Rootless.ne_root {parents : List (Scope × Scope)} (h : Rootless parents) (hs : s ≠ .root)
    (hreach : ReflTransGen (IsParent parents) s t) : t ≠ .root := by
  rcases hreach.cases_tail with rfl | ⟨child, -, hparent⟩
  · exact hs
  · exact (h child t hparent).2

/-- The root scope stands behind a line of ancestors, in which each one is the parent of the one before. -/
theorem exists_scopeChain_eq (h : Rootless lex.parents) (s : Scope) : ∃ line,
    lex.scopeChain s = line ++ [.root] ∧ .root ∉ line ∧ line.IsChain (IsParent lex.parents) := by
  obtain ⟨climbed, summit, hclimbs, hascends, -, hchain⟩ := lex.exists_climb s
  by_cases hs : s = .root
  · subst hs
    -- The climb is over before it starts, and the line is empty.
    have horphan : ∀ parent, ¬ IsParent lex.parents .root parent :=
      fun parent hparent => (h .root parent hparent).1 rfl
    obtain rfl := hclimbs.unique (isParent_rightUnique lex.parents) (.top horphan)
    exact ⟨[], by simpa using hchain, List.not_mem_nil, .nil⟩
  · have hroot : .root ∉ climbed := fun hmem => h.ne_root hs (hascends.reaches hmem) rfl
    rw [if_neg hroot] at hchain
    exact ⟨climbed, hchain, hroot, hascends.isChain⟩

/-- The chain of a scope in a loaded lexicon, whatever parents its records declare. There is one way to
climb from the scope to the parents declared last, and it ends; the chain is what it ends with and the
root scope. The chain starts with the scope, holds no scope twice, and ends with the root scope, in front
of which stand the scope and all of its ancestors in their order. The chain of each scope on it lies
inside of it. -/
theorem scopeChain_characterized (hload : load files path = .ok lex) :
    ∃ items, Inlines files [] (.file path .root) items lex.sources ∧ ∀ s,
      (∃ climbed, (∀ out, Climbs (LastParent items) [s] s out ↔ out = climbed) ∧
        lex.scopeChain s = if .root ∈ climbed then climbed else climbed ++ [.root]) ∧
      (lex.scopeChain s).head? = some s ∧ (lex.scopeChain s).Nodup ∧
      (∃ line, lex.scopeChain s = line ++ [.root] ∧ .root ∉ line ∧ line.IsChain (LastParent items)) ∧
      (∀ t, t ∈ lex.scopeChain s ↔ t = .root ∨ ReflTransGen (LastParent items) s t) ∧
      ∀ owner ∈ lex.scopeChain s, lex.scopeChain owner ⊆ lex.scopeChain s := by
  obtain ⟨items, hinlines, -, hlex⟩ := exists_items_of_load hload
  have hparent : IsParent lex.parents = LastParent items :=
    funext₂ fun child parent => propext (lastParent_iff hlex)
  have hrootless : Rootless lex.parents := by
    intro child parent h
    rw [hparent] at h
    exact hinlines.ne_root h
  refine ⟨items, hinlines, fun s => ?_⟩
  rw [← hparent]
  refine ⟨?_, lex.head?_scopeChain s, lex.nodup_scopeChain s, exists_scopeChain_eq hrootless s,
    fun t => mem_scopeChain_iff, fun owner howner => scopeChain_subset hrootless.lookup_root howner⟩
  obtain ⟨climbed, summit, hclimbs, -, -, hchain⟩ := lex.exists_climb s
  refine ⟨climbed, fun out => ⟨fun hout => ?_, fun hout => hout ▸ hclimbs⟩, hchain⟩
  exact hout.unique (isParent_rightUnique lex.parents) hclimbs

/-! ### Varieties in a circle -/

def circleText : String :=
  "lang %new : %old\nlang %old : %proto\nlang %proto : %late\nlang %late : %old\n" ++
    "lang %old : %late\n"

set_option maxRecDepth 100000 in
/-- The old variety and the late one are declared to be parents of each other. The proto-variety is not an
ancestor, since another parent was declared later. -/
theorem scopeChain_characterized_circle : ∃ lex items,
    load (Session.lexiconFiles circleText) ⟨"lexicon.pycl"⟩ = .ok lex ∧
    Inlines (Session.lexiconFiles circleText) [] (.file ⟨"lexicon.pycl"⟩ .root) items lex.sources ∧
    lex.scopeChain ⟨"new"⟩ = [⟨"new"⟩, ⟨"old"⟩, ⟨"late"⟩, .root] ∧
    ReflTransGen (LastParent items) ⟨"new"⟩ ⟨"late"⟩ ∧
    ¬ ReflTransGen (LastParent items) ⟨"new"⟩ ⟨"proto"⟩ ∧
    lex.scopeChain ⟨"late"⟩ ⊆ lex.scopeChain ⟨"new"⟩ := by
  have hloaded : ((load (Session.lexiconFiles circleText) ⟨"lexicon.pycl"⟩).map
      (·.scopeChain ⟨"new"⟩)).toOption = some [⟨"new"⟩, ⟨"old"⟩, ⟨"late"⟩, .root] := by
    decide +kernel
  obtain ⟨lex, hload, hchain⟩ := map_eq_ok_iff.1 (toOption_eq_some_iff.1 hloaded)
  obtain ⟨items, hinlines, hscopes⟩ := scopeChain_characterized hload
  obtain ⟨-, -, -, -, hmem, hinside⟩ := hscopes ⟨"new"⟩
  rw [hchain] at hmem hinside
  refine ⟨lex, items, hload, hinlines, hchain, ?_, ?_, hchain ▸ hinside ⟨"late"⟩ (by simp)⟩
  · exact ((hmem ⟨"late"⟩).1 (by simp)).resolve_left (by decide)
  · exact fun hreach => absurd ((hmem ⟨"proto"⟩).2 (.inr hreach)) (by decide)

end Lexicon

end Etymon
