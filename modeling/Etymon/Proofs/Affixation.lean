import Etymon.Proofs.Action
import Etymon.Proofs.Arrangement
import Etymon.Proofs.Query
import Mathlib.Data.List.Chain

/-!
# Which forms can be affixed

A joiner must not come before the era that one of its sides was born at. In an arranged form this is a
matter of neighbours: it only depends on the morphemes and joiners that stand side by side in the
reading, not on how the form was bracketed.

## Main definitions

* `Sign.Fits`: a morpheme stands beside a joiner that does not come before it.
* `Form.Crowned`: a joiner ranks at least as high as everything in its head and tail.

## Main results

* `Query.exists_ofForm_iff`: where ranks go down, a form has a query if its neighbours fit.
* `Query.affixation_by_neighbours`: this for arranged forms, with what happens otherwise.
-/

namespace Etymon

/-- Of a morpheme and a joiner side by side, the morpheme's era ranks no higher. -/
def Sign.Fits (order : RuleOrder) : Sign → Sign → Prop
  | .morpheme m, .joiner j => order.rank m.era ≤ order.rank j.era
  | .joiner j, .morpheme m => order.rank m.era ≤ order.rank j.era
  | _, _ => True

namespace Form

variable {order : RuleOrder} {f h t : Form} {j : Joiner} {i : Nat}

/-! ## Ranks of joins -/

/-- The era that a form is at when it takes part in a join. -/
def era : Form → Option Era
  | leaf m => m.era
  | join _ j _ => j.era

theorem rankAt_join_root : (join h j t).rankAt order h.joiners.length = order.rank j.era := by
  simp [rankAt]

theorem rankAt_join_head (hi : i < h.joiners.length) :
    (join h j t).rankAt order i = h.rankAt order i := by
  simp [rankAt, List.getElem?_append_left hi]

theorem rankAt_join_tail :
    (join h j t).rankAt order (h.joiners.length + 1 + i) = t.rankAt order i := by
  rw [rankAt, joiners_join, List.getElem?_append_right (by omega),
    show h.joiners.length + 1 + i - h.joiners.length = i + 1 by omega, List.getElem?_cons_succ,
    rankAt]

theorem exists_rankAt_of_mem (order : RuleOrder) {k : Joiner} (hk : k ∈ f.joiners) :
    ∃ i < f.joiners.length, f.rankAt order i = order.rank k.era := by
  obtain ⟨i, hi, rfl⟩ := List.mem_iff_getElem.1 hk
  exact ⟨i, hi, by simp [rankAt, hi]⟩

/-- Ranks that go down in a form go down in its head and tail, from the joiner at the root. -/
theorem RankedDown.join (hf : (join h j t).RankedDown order) :
    h.RankedDown order ∧ t.RankedDown order ∧
      ∀ k ∈ h.joiners ++ t.joiners, order.rank k.era ≤ order.rank j.era := by
  refine ⟨fun i k hik => ?_, fun i k hik => ?_, fun k hk => ?_⟩
  · have hle := hf i k (.head hik)
    rwa [rankAt_join_head hik.lt.1, rankAt_join_head hik.lt.2.1] at hle
  · have hle := hf _ _ (.tail hik)
    rwa [rankAt_join_tail, rankAt_join_tail] at hle
  · rcases List.mem_append.1 hk with hk | hk
    · obtain ⟨i, hi, hrank⟩ := exists_rankAt_of_mem order hk
      have hle := hf _ _ (.inHead hi)
      rwa [rankAt_join_root, rankAt_join_head hi, hrank] at hle
    · obtain ⟨i, hi, hrank⟩ := exists_rankAt_of_mem order hk
      have hle := hf _ _ (.inTail hi)
      rwa [rankAt_join_root, rankAt_join_tail, hrank] at hle

/-- The era of a side that is a join is that of one of its joiners. -/
theorem rank_era_le {r : Nat} (hleaf : ∀ m, f = leaf m → order.rank m.era ≤ r)
    (hjoin : ∀ k ∈ f.joiners, order.rank k.era ≤ r) : order.rank f.era ≤ r := by
  cases f with
  | leaf m => exact hleaf m rfl
  | join h k t => exact hjoin k (by simp)

/-! ## Neighbours -/

/-- A reading begins and ends with a morpheme. -/
theorem exists_head?_reading (f : Form) :
    ∃ m ∈ f.leaves, f.reading.head? = some (.morpheme m) := by
  induction f with
  | leaf m => exact ⟨m, by simp, rfl⟩
  | join h j t ihh _ =>
    obtain ⟨m, hm, hhead⟩ := ihh
    exact ⟨m, by simp [hm], by simp [List.head?_append, hhead]⟩

theorem exists_getLast?_reading (f : Form) :
    ∃ m ∈ f.leaves, f.reading.getLast? = some (.morpheme m) := by
  induction f with
  | leaf m => exact ⟨m, by simp, rfl⟩
  | join h j t _ iht =>
    obtain ⟨m, hm, hlast⟩ := iht
    refine ⟨m, by simp [hm], ?_⟩
    rw [reading_join, List.getLast?_append, List.getLast?_cons, hlast]
    rfl

/-- The neighbours in a join are those in its head, those in its tail, and the root's own two. -/
theorem isChain_reading_join :
    (join h j t).reading.IsChain (Sign.Fits order) ↔
      h.reading.IsChain (Sign.Fits order) ∧ t.reading.IsChain (Sign.Fits order) ∧
        (∀ m, h.reading.getLast? = some (.morpheme m) → order.rank m.era ≤ order.rank j.era) ∧
        ∀ m, t.reading.head? = some (.morpheme m) → order.rank m.era ≤ order.rank j.era := by
  obtain ⟨last, -, hlast⟩ := h.exists_getLast?_reading
  obtain ⟨first, -, hfirst⟩ := t.exists_head?_reading
  rw [reading_join, List.isChain_append, List.isChain_cons]
  simp only [hlast, hfirst, List.head?_cons, Option.mem_def, Option.some.injEq, Sign.morpheme.injEq,
    forall_eq', Sign.Fits]
  tauto

/-- Where ranks go down and neighbours fit, no morpheme ranks above the root. -/
theorem rank_le_of_mem_leaves (hdown : f.RankedDown order)
    (hfits : f.reading.IsChain (Sign.Fits order)) :
    ∀ m ∈ f.leaves, order.rank m.era ≤ order.rank f.era := by
  induction f with
  | leaf m => simp [era]
  | join h j t ihh iht =>
    obtain ⟨hdownHead, hdownTail, hroot⟩ := hdown.join
    obtain ⟨hhead, htail, hlast, hfirst⟩ := isChain_reading_join.1 hfits
    have hsideHead : order.rank h.era ≤ order.rank j.era :=
      rank_era_le (fun m hm => hlast m (by rw [hm]; rfl)) fun k hk => hroot k (by simp [hk])
    have hsideTail : order.rank t.era ≤ order.rank j.era :=
      rank_era_le (fun m hm => hfirst m (by rw [hm]; rfl)) fun k hk => hroot k (by simp [hk])
    intro m hm
    rcases List.mem_append.1 hm with hm | hm
    · exact (ihh hdownHead hhead m hm).trans hsideHead
    · exact (iht hdownTail htail m hm).trans hsideTail

/-- Every joiner ranks at least as high as the joiners and the morphemes in its head and tail. -/
def Crowned (order : RuleOrder) : Form → Prop
  | leaf _ => True
  | join h j t =>
    (∀ k ∈ h.joiners ++ t.joiners, order.rank k.era ≤ order.rank j.era) ∧
      (∀ m ∈ h.leaves ++ t.leaves, order.rank m.era ≤ order.rank j.era) ∧
      h.Crowned order ∧ t.Crowned order

theorem crowned_of_isChain (hdown : f.RankedDown order)
    (hfits : f.reading.IsChain (Sign.Fits order)) : f.Crowned order := by
  induction f with
  | leaf m => trivial
  | join h j t ihh iht =>
    obtain ⟨hdownHead, hdownTail, hroot⟩ := hdown.join
    obtain ⟨hhead, htail, -⟩ := isChain_reading_join.1 hfits
    exact ⟨hroot, rank_le_of_mem_leaves hdown hfits, ihh hdownHead hhead, iht hdownTail htail⟩

end Form

namespace Query

variable {order : RuleOrder} {f h t : Form} {j : Joiner} {q : Query}

theorem start_of_ofForm (hq : ofForm order f = .ok q) : q.start = f.era := by
  cases f with
  | leaf m =>
    rw [ofForm_leaf, Except.ok.injEq] at hq
    rw [← hq, start, Form.era]
  | join h j t =>
    obtain ⟨head, tail, -, -, -, -, rfl⟩ := ofForm_join_eq_ok hq
    rfl

/-- A join has a query when both sides have one and none of them is at a later era. -/
theorem exists_ofForm_join_iff :
    (∃ q, ofForm order (.join h j t) = .ok q) ↔
      (∃ q, ofForm order h = .ok q) ∧ (∃ q, ofForm order t = .ok q) ∧
        order.rank h.era ≤ order.rank j.era ∧ order.rank t.era ≤ order.rank j.era := by
  constructor
  · rintro ⟨q, hq⟩
    obtain ⟨head, tail, hhead, htail, hle, hle', -⟩ := ofForm_join_eq_ok hq
    rw [start_of_ofForm hhead] at hle
    rw [start_of_ofForm htail] at hle'
    exact ⟨⟨head, hhead⟩, ⟨tail, htail⟩, hle, hle'⟩
  · rintro ⟨⟨head, hhead⟩, ⟨tail, htail⟩, hle, hle'⟩
    rw [← start_of_ofForm hhead] at hle
    rw [← start_of_ofForm htail] at hle'
    refine ⟨node j.stress (upTo j.era head) (upTo j.era tail) j.era none, ?_⟩
    rw [ofForm, hhead, htail]
    simp [checkAffixation, Nat.not_lt.2 hle, Nat.not_lt.2 hle', bind, Except.bind, pure, Except.pure]

theorem checkAffixation_eq_error {joiner : Option Era} {e : Error}
    (h : checkAffixation order joiner q = .error e) : e = .badAffixation joiner q.start := by
  rw [checkAffixation] at h
  split at h <;> cases h
  rfl

/-- Nothing else can go wrong with a form. -/
theorem eq_badAffixation_of_ofForm {e : Error} (he : ofForm order f = .error e) :
    ∃ joiner stem, e = .badAffixation joiner stem := by
  induction f generalizing e with
  | leaf m => cases he
  | join h j t ihh iht =>
    rw [ofForm] at he
    simp only [bind_eq_error_iff] at he
    rcases he with he | ⟨head, -, he | ⟨tail, -, he | ⟨-, -, he | ⟨-, -, he⟩⟩⟩⟩
    · exact ihh he
    · exact iht he
    · exact ⟨_, _, checkAffixation_eq_error he⟩
    · exact ⟨_, _, checkAffixation_eq_error he⟩
    · cases he

/-- Where ranks go down, the joiner above a morpheme is one of its neighbours, and the other neighbour
ranks no lower; so a form has a query exactly when all neighbours fit. -/
theorem exists_ofForm_iff (hdown : f.RankedDown order) :
    (∃ q, ofForm order f = .ok q) ↔ f.reading.IsChain (Sign.Fits order) := by
  induction f with
  | leaf m => simp [ofForm_leaf]
  | join h j t ihh iht =>
    obtain ⟨hdownHead, hdownTail, hroot⟩ := hdown.join
    rw [exists_ofForm_join_iff, Form.isChain_reading_join, ihh hdownHead, iht hdownTail]
    refine and_congr_right fun hhead => and_congr_right fun htail => and_congr ⟨?_, ?_⟩ ⟨?_, ?_⟩
    · intro hle m hm
      obtain ⟨last, hmem, hlast⟩ := h.exists_getLast?_reading
      rw [hlast, Option.some.injEq, Sign.morpheme.injEq] at hm
      exact hm ▸ (Form.rank_le_of_mem_leaves hdownHead hhead last hmem).trans hle
    · intro hlast
      exact Form.rank_era_le (fun m hm => hlast m (by rw [hm]; rfl)) fun k hk => hroot k (by simp [hk])
    · intro hle m hm
      obtain ⟨first, hmem, hfirst⟩ := t.exists_head?_reading
      rw [hfirst, Option.some.injEq, Sign.morpheme.injEq] at hm
      exact hm ▸ (Form.rank_le_of_mem_leaves hdownTail htail first hmem).trans hle
    · intro hfirst
      exact Form.rank_era_le (fun m hm => hfirst m (by rw [hm]; rfl)) fun k hk => hroot k (by simp [hk])

/-- An arranged form has a query exactly if no morpheme ranks above a joiner beside it in the reading,
and is badly affixed otherwise. So bracketings of one reading are accepted or refused together, and in
an accepted form every joiner ranks at least as high as all that is in its head and tail. -/
theorem affixation_by_neighbours (order : RuleOrder) (f : Form) :
    ((∃ q, ofForm order (f.arrange order) = .ok q) ↔ f.reading.IsChain (Sign.Fits order)) ∧
      (¬ f.reading.IsChain (Sign.Fits order) → ∃ joiner stem,
        ofForm order (f.arrange order) = .error (.badAffixation joiner stem)) ∧
      (∀ g : Form, g.reading = f.reading →
        ((∃ q, ofForm order (f.arrange order) = .ok q) ↔
          ∃ q, ofForm order (g.arrange order) = .ok q)) ∧
      ((∃ q, ofForm order (f.arrange order) = .ok q) → (f.arrange order).Crowned order) := by
  have hiff : ∀ g : Form, (∃ q, ofForm order (g.arrange order) = .ok q) ↔
      g.reading.IsChain (Sign.Fits order) := by
    intro g
    rw [exists_ofForm_iff (Form.rankedDown_arrange order g), Form.reading_arrange]
  refine ⟨hiff f, fun hmisfit => ?_, fun g hread => ?_, fun hok => ?_⟩
  · rw [← hiff] at hmisfit
    rcases hresult : ofForm order (f.arrange order) with e | q
    · obtain ⟨joiner, stem, rfl⟩ := eq_badAffixation_of_ofForm hresult
      exact ⟨joiner, stem, rfl⟩
    · exact absurd ⟨q, hresult⟩ hmisfit
  · rw [hiff, hiff, hread]
  · rw [exists_ofForm_iff (Form.rankedDown_arrange order f)] at hok
    exact Form.crowned_of_isChain (Form.rankedDown_arrange order f) hok

end Query

end Etymon
