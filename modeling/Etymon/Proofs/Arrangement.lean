import Etymon.Arrangement
import Etymon.Proofs.Form
import Mathlib.Data.List.Nodup

/-!
# The arranged form

Arranging keeps the reading of a form and puts every joiner above the joiners that come after it in the
order of links: a later era comes first, then a shallower place in the original form, then a place
further left. No other form does both.

## Main definitions

* `Form.Precedes`: the order of a form's joiners.

## Main results

* `Form.arrange_eq_iff`: the arranged form is the only one of its reading that respects the order.
* `Form.arrange_characterized`: this with what follows from it for ranks, fixed points and dominance.
-/

namespace Etymon

/-! ## Cutting at the top link -/

section

variable {order : RuleOrder} {a b c : Link}

theorem outranks_iff : outranks order a b = true ↔
    order.rank b.joiner.era < order.rank a.joiner.era ∨
      order.rank a.joiner.era = order.rank b.joiner.era ∧ a.depth < b.depth := by
  simp [outranks]

theorem outranks_asymm (h : outranks order a b = true) : outranks order b a = false := by
  rw [← Bool.not_eq_true]
  intro hba
  rw [outranks_iff] at h hba
  omega

/-- A link that outranks another outranks a third one or is outranked by it. -/
theorem outranks_cotrans (h : outranks order a c = true) (b : Link) :
    outranks order a b = true ∨ outranks order b c = true := by
  simp only [outranks_iff] at *
  omega

end

theorem splitTop_eq_none {order : RuleOrder} {links : List Link} :
    splitTop order links = none ↔ links = [] := by
  cases links with
  | nil => simp [splitTop]
  | cons link rest =>
    rw [splitTop]
    split
    · simp
    · split <;> simp

/-- The top link outranks every link to its left, and none to its right outranks it. -/
theorem outranks_of_splitTop {order : RuleOrder} {links before after : List Link} {top : Link}
    (h : splitTop order links = some (before, top, after)) :
    (∀ b ∈ before, outranks order top b = true) ∧ ∀ a ∈ after, outranks order a top = false := by
  induction links generalizing before top after with
  | nil => simp [splitTop] at h
  | cons link rest ih =>
    rw [splitTop] at h
    split at h
    · next hnone =>
      rw [splitTop_eq_none] at hnone
      simp only [Option.some.injEq, Prod.mk.injEq] at h
      obtain ⟨rfl, rfl, rfl⟩ := h
      simp
    · next b t a hsome =>
      obtain ⟨hleft, hright⟩ := ih hsome
      split at h
      · next hout =>
        simp only [Option.some.injEq, Prod.mk.injEq] at h
        obtain ⟨rfl, rfl, rfl⟩ := h
        refine ⟨fun x hx => ?_, hright⟩
        rcases List.mem_cons.1 hx with rfl | hx
        · exact hout
        · exact hleft x hx
      · next hout =>
        simp only [Option.some.injEq, Prod.mk.injEq] at h
        obtain ⟨rfl, rfl, rfl⟩ := h
        refine ⟨by simp, fun x hx => ?_⟩
        rw [← Bool.not_eq_true]
        intro hxl
        -- a link that outranks the first one would outrank the top of the rest as well
        have hxt : outranks order x t = true :=
          (outranks_cotrans hxl t).resolve_right hout
        rw [eq_of_splitTop hsome] at hx
        rcases List.mem_append.1 hx with hx | hx
        · exact absurd hxt (by simp [outranks_asymm (hleft x hx)])
        · rcases List.mem_cons.1 hx with rfl | hx
          · exact hout hxl
          · exact absurd hxt (by simp [hright x hx])

/-! ## Rebuilding -/

section

variable {order : RuleOrder} {first : Morpheme} {links before after : List Link} {top : Link}

theorem rebuild_nil : rebuild order first [] = .leaf first := by
  rw [rebuild]
  simp [splitTop]

theorem rebuild_eq_join (h : splitTop order links = some (before, top, after)) :
    rebuild order first links =
      .join (rebuild order first before) top.joiner (rebuild order top.leaf after) := by
  rw [rebuild]
  split
  · next hnone => simp [h] at hnone
  · next b t a hsome =>
    rw [h] at hsome
    simp only [Option.some.injEq, Prod.mk.injEq] at hsome
    obtain ⟨rfl, rfl, rfl⟩ := hsome
    rfl

/-- What holds of no links, and of links cut at their top when it holds of both sides, holds of all. -/
theorem splitTop_induction {P : Morpheme → List Link → Prop} (order : RuleOrder)
    (nil : ∀ first, P first [])
    (cut : ∀ first links before top after, splitTop order links = some (before, top, after) →
      P first before → P top.leaf after → P first links)
    (first : Morpheme) (links : List Link) : P first links := by
  fun_induction rebuild order first links with
  | case1 first links hnone =>
    rw [splitTop_eq_none] at hnone
    exact hnone ▸ nil first
  | case2 first links before top after hsome hlen ihb iha =>
    exact cut first links before top after hsome ihb iha

end

/-- What a link adds to the reading. -/
def Link.signs (l : Link) : List Sign :=
  [.joiner l.joiner, .morpheme l.leaf]

theorem reading_rebuild (order : RuleOrder) (first : Morpheme) (links : List Link) :
    (rebuild order first links).reading = .morpheme first :: links.flatMap Link.signs := by
  induction first, links using splitTop_induction order with
  | nil first => simp [rebuild_nil]
  | cut first links before top after hsome ihb iha =>
    rw [rebuild_eq_join hsome, Form.reading_join, ihb, iha, eq_of_splitTop hsome]
    simp [Link.signs]

theorem joiners_rebuild (order : RuleOrder) (first : Morpheme) (links : List Link) :
    (rebuild order first links).joiners = links.map Link.joiner := by
  rw [← Form.filterMap_reading, reading_rebuild]
  induction links with
  | nil => rfl
  | cons link rest ih => simpa [Link.signs, List.filterMap_cons] using ih

/-- In a rebuilt form a joiner above another outranks it, or stands to its left without being
outranked. -/
theorem outranks_of_above_rebuild {order : RuleOrder} {first : Morpheme} {links : List Link}
    {i k : Nat} (hik : (rebuild order first links).Above i k) :
    ∃ a b, links[i]? = some a ∧ links[k]? = some b ∧
      (outranks order a b = true ∨ outranks order b a = false ∧ i < k) := by
  induction first, links using splitTop_induction order generalizing i k with
  | nil first =>
    rw [rebuild_nil] at hik
    cases hik
  | cut first links before top after hsome ihb iha =>
    obtain ⟨hleft, hright⟩ := outranks_of_splitTop hsome
    have hlen : (rebuild order first before).joiners.length = before.length := by
      simp [joiners_rebuild]
    have hlen' : (rebuild order top.leaf after).joiners.length = after.length := by
      simp [joiners_rebuild]
    have htop : links[before.length]? = some top := by simp [eq_of_splitTop hsome]
    have hbefore : ∀ {n : Nat} {x : Link}, before[n]? = some x → links[n]? = some x := by
      intro n x hx
      rw [eq_of_splitTop hsome, List.getElem?_append_left (List.getElem?_eq_some_iff.1 hx).1, hx]
    have hafter : ∀ n, links[before.length + 1 + n]? = after[n]? := by
      intro n
      rw [eq_of_splitTop hsome, List.getElem?_append_right (by omega)]
      simp [show before.length + 1 + n - before.length = n + 1 by omega]
    rw [rebuild_eq_join hsome] at hik
    cases hik with
    | inHead hk =>
      rw [hlen] at hk ⊢
      obtain ⟨b, hb⟩ : ∃ b, before[k]? = some b := ⟨_, List.getElem?_eq_getElem hk⟩
      exact ⟨top, b, htop, hbefore hb, .inl (hleft b (List.mem_of_getElem? hb))⟩
    | @inTail _ _ _ k hk =>
      rw [hlen'] at hk
      rw [hlen]
      obtain ⟨a, ha⟩ : ∃ a, after[k]? = some a := ⟨_, List.getElem?_eq_getElem hk⟩
      exact ⟨top, a, htop, (hafter k).trans ha,
        .inr ⟨hright a (List.mem_of_getElem? ha), by omega⟩⟩
    | head hik =>
      obtain ⟨a, b, ha, hb, hab⟩ := ihb hik
      exact ⟨a, b, hbefore ha, hbefore hb, hab⟩
    | @tail _ _ _ i k hik =>
      obtain ⟨a, b, ha, hb, hab⟩ := iha hik
      rw [hlen]
      exact ⟨a, b, (hafter i).trans ha, (hafter k).trans hb,
        hab.imp_right fun hba => ⟨hba.1, by omega⟩⟩

/-! ## The order of a form's joiners -/

namespace Form

/-- How deep every joiner lies, in reading order. -/
def depths : Form → List Nat
  | leaf _ => []
  | join h _ t => h.depths.map (· + 1) ++ 0 :: t.depths.map (· + 1)

@[simp] theorem length_depths (f : Form) : f.depths.length = f.joiners.length := by
  induction f with
  | leaf m => rfl
  | join h j t ihh iht => simp [depths, ihh, iht]

/-- The depth of the joiner number `i`. -/
def depthAt (f : Form) (i : Nat) : Nat :=
  f.depths[i]?.getD 0

/-- The rank of the joiner number `i`. -/
def rankAt (order : RuleOrder) (f : Form) (i : Nat) : Nat :=
  order.rank (f.joiners[i]?.bind Joiner.era)

/-- The joiner number `i` comes before the joiner number `k`: it ranks higher; or they rank the same
and it lies less deep; or this is the same, too, and it stands further left. -/
def Precedes (order : RuleOrder) (f : Form) (i k : Nat) : Prop :=
  f.rankAt order k < f.rankAt order i ∨
    f.rankAt order i = f.rankAt order k ∧
      (f.depthAt i < f.depthAt k ∨ f.depthAt i = f.depthAt k ∧ i < k)

theorem Precedes.asymm {order : RuleOrder} {f : Form} {i k : Nat} (h : f.Precedes order i k) :
    ¬ f.Precedes order k i := by
  unfold Precedes at *
  omega

theorem rankAt_eq_of_reading {f g : Form} (h : f.reading = g.reading) (order : RuleOrder) (i : Nat) :
    f.rankAt order i = g.rankAt order i := by
  rw [rankAt, joiners_eq_of_reading h, rankAt]

section

variable {h t : Form} {j : Joiner} {k : Nat}

theorem depthAt_join_root : (join h j t).depthAt h.joiners.length = 0 := by
  simp [depthAt, depths]

theorem depthAt_join_head (hk : k < h.joiners.length) :
    (join h j t).depthAt k = h.depthAt k + 1 := by
  simp [depthAt, depths, List.getElem?_append, hk]

theorem depthAt_join_tail (hk : k < t.joiners.length) :
    (join h j t).depthAt (h.joiners.length + 1 + k) = t.depthAt k + 1 := by
  rw [depthAt, depths, List.getElem?_append_right (by simp only [List.length_map, length_depths]; omega)]
  simp [depthAt, hk, show h.joiners.length + 1 + k - h.joiners.length = k + 1 by omega]

end

theorem depthAt_lt_of_above {f : Form} {i k : Nat} (hik : f.Above i k) :
    f.depthAt i < f.depthAt k := by
  induction hik with
  | inHead hk => rw [depthAt_join_root, depthAt_join_head hk]; omega
  | inTail hk => rw [depthAt_join_root, depthAt_join_tail hk]; omega
  | head hik ih => rw [depthAt_join_head hik.lt.1, depthAt_join_head hik.lt.2.1]; omega
  | tail hik ih => rw [depthAt_join_tail hik.lt.1, depthAt_join_tail hik.lt.2.1]; omega

/-! ### Links -/

theorem joiners_links (f : Form) (depth : Nat) :
    (f.links depth).2.map Link.joiner = f.joiners := by
  induction f generalizing depth with
  | leaf m => rfl
  | join h j t ihh iht => simp [links, ihh, iht]

theorem depths_links (f : Form) (depth : Nat) :
    (f.links depth).2.map Link.depth = f.depths.map (depth + ·) := by
  induction f generalizing depth with
  | leaf m => rfl
  | join h j t ihh iht =>
    simp [links, depths, ihh, iht, Function.comp_def, Nat.add_assoc, Nat.add_comm 1]

theorem signs_links (f : Form) (depth : Nat) :
    .morpheme (f.links depth).1 :: (f.links depth).2.flatMap Link.signs = f.reading := by
  induction f generalizing depth with
  | leaf m => rfl
  | join h j t ihh iht =>
    rw [reading_join, ← ihh (depth + 1), ← iht (depth + 1)]
    simp [links, Link.signs]

theorem rankAt_of_links {order : RuleOrder} {f : Form} {i : Nat} {a : Link}
    (ha : (f.links 0).2[i]? = some a) : f.rankAt order i = order.rank a.joiner.era := by
  rw [rankAt, ← joiners_links f 0, List.getElem?_map, ha]
  rfl

theorem depthAt_of_links {f : Form} {i : Nat} {a : Link} (ha : (f.links 0).2[i]? = some a) :
    f.depthAt i = a.depth := by
  have hmap := depths_links f 0
  simp only [Nat.zero_add, List.map_id'] at hmap
  rw [depthAt, ← hmap, List.getElem?_map, ha]
  rfl

/-! ### Arranging -/

variable (order : RuleOrder) (f : Form)

theorem reading_arrange : (f.arrange order).reading = f.reading := by
  rw [arrange, reading_rebuild, signs_links]

theorem precedes_of_above_arrange {order : RuleOrder} {f : Form} {i k : Nat}
    (hik : (f.arrange order).Above i k) : f.Precedes order i k := by
  obtain ⟨a, b, ha, hb, hab⟩ := outranks_of_above_rebuild hik
  rw [Precedes, rankAt_of_links ha, rankAt_of_links hb, depthAt_of_links ha, depthAt_of_links hb]
  rcases hab with hab | ⟨hba, hlt⟩
  · rw [outranks_iff] at hab
    omega
  · rw [← Bool.not_eq_true, outranks_iff] at hba
    omega

/-- The arranged form is the only one of its reading in which joiners follow their order. -/
theorem arrange_eq_iff {g : Form} :
    f.arrange order = g ↔
      g.reading = f.reading ∧ ∀ i k, g.Above i k → f.Precedes order i k := by
  constructor
  · rintro rfl
    exact ⟨reading_arrange order f, fun i k => precedes_of_above_arrange⟩
  · rintro ⟨hread, habove⟩
    exact eq_of_reading_of_above (fun i k => Precedes.asymm) ((reading_arrange order f).trans hread.symm)
      (fun i k => precedes_of_above_arrange) habove

/-- Every joiner ranks at least as high as the joiners in its head and tail. -/
def RankedDown (order : RuleOrder) (f : Form) : Prop :=
  ∀ i k, f.Above i k → f.rankAt order k ≤ f.rankAt order i

theorem rankedDown_arrange : (f.arrange order).RankedDown order := by
  intro i k hik
  rw [rankAt_eq_of_reading (reading_arrange order f), rankAt_eq_of_reading (reading_arrange order f)]
  have := precedes_of_above_arrange hik
  unfold Precedes at this
  omega

/-- In the form itself a joiner lies less deep than those below it, so that only ranks count. -/
theorem rankedDown_iff : f.RankedDown order ↔ ∀ i k, f.Above i k → f.Precedes order i k := by
  refine forall₃_congr fun i k hik => ?_
  have := depthAt_lt_of_above hik
  unfold Precedes
  omega

theorem arrange_eq_self_iff : f.arrange order = f ↔ f.RankedDown order := by
  rw [arrange_eq_iff, rankedDown_iff]
  exact and_iff_right rfl

theorem arrange_arrange : (f.arrange order).arrange order = f.arrange order :=
  (arrange_eq_self_iff order _).2 (rankedDown_arrange order f)

/-- Of two joiners of one rank, the lower one does not come to stand above the other. -/
theorem not_above_arrange {order : RuleOrder} {f : Form} {i k : Nat} (hik : f.Above i k)
    (hrank : f.rankAt order i = f.rankAt order k) : ¬ (f.arrange order).Above k i := by
  intro hki
  have := precedes_of_above_arrange hki
  have := depthAt_lt_of_above hik
  unfold Precedes at *
  omega

/-- Where all ranks differ, depths do not count. -/
theorem arrange_eq_of_reading {order : RuleOrder} {f g : Form} (hread : f.reading = g.reading)
    (hranks : (f.joiners.map fun j => order.rank j.era).Nodup) :
    f.arrange order = g.arrange order := by
  rw [arrange_eq_iff]
  refine ⟨(reading_arrange order g).trans hread.symm, fun i k hik => ?_⟩
  have hgik := precedes_of_above_arrange hik
  obtain ⟨hi, hk, hne⟩ := hik.lt
  rw [joiners_eq_of_reading ((reading_arrange order g).trans hread.symm)] at hi hk
  have hdiff : f.rankAt order i ≠ f.rankAt order k := by
    intro heq
    rw [rankAt, rankAt, List.getElem?_eq_getElem hi, List.getElem?_eq_getElem hk] at heq
    have hplace : (⟨i, by simpa⟩ : Fin (f.joiners.map fun j => order.rank j.era).length) =
        ⟨k, by simpa⟩ := List.nodup_iff_injective_get.1 hranks (by simpa using heq)
    exact hne (congrArg Fin.val hplace)
  unfold Precedes at *
  rw [← rankAt_eq_of_reading hread, ← rankAt_eq_of_reading hread] at hgik
  omega

/-- The arranged form is the only form of the same reading whose joiners follow their order. Hence its
ranks go down, it is the form itself just when that has its ranks going down already, arranging twice is
arranging once, joiners of one rank are never turned upside down, and forms of one reading whose joiners
all differ in rank are arranged alike. -/
theorem arrange_characterized :
    (f.arrange order).reading = f.reading ∧
      (∀ g : Form, f.arrange order = g ↔
        g.reading = f.reading ∧ ∀ i k, g.Above i k → f.Precedes order i k) ∧
      (f.arrange order).RankedDown order ∧
      (f.arrange order = f ↔ ∀ i k, f.Above i k → f.Precedes order i k) ∧
      (f.arrange order = f ↔ f.RankedDown order) ∧
      (f.arrange order).arrange order = f.arrange order ∧
      (∀ i k, f.Above i k → f.rankAt order i = f.rankAt order k →
        ¬ (f.arrange order).Above k i) ∧
      ∀ g : Form, f.reading = g.reading → (f.joiners.map fun j => order.rank j.era).Nodup →
        f.arrange order = g.arrange order :=
  ⟨reading_arrange order f, fun _ => arrange_eq_iff order f, rankedDown_arrange order f,
    (arrange_eq_self_iff order f).trans (rankedDown_iff order f), arrange_eq_self_iff order f,
    arrange_arrange order f, fun _ _ => not_above_arrange, fun _ => arrange_eq_of_reading⟩

end Form

end Etymon
