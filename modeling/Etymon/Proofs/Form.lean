import Etymon.Form
import Mathlib.Data.List.Basic

/-!
# Forms as sequences and as orders

A form is read as a sequence of morphemes and joiners. Its shape tells which joiner stands above which;
together with the reading this fixes the form, and any order that the shape respects fixes the shape.

## Main definitions

* `Form.reading`: the morphemes and joiners of a form in reading order.
* `Form.Above`: one joiner has another in its head or tail.

## Main results

* `Form.eq_of_reading_of_above`: two forms with one reading that respect one order are equal.
-/

namespace Etymon

/-- A part of a form's reading. -/
inductive Sign where
  | morpheme (m : Morpheme)
  | joiner (j : Joiner)
  deriving DecidableEq, Repr

def Sign.joiner? : Sign → Option Joiner
  | morpheme _ => none
  | joiner j => some j

@[simp] theorem Sign.joiner?_morpheme (m : Morpheme) : (morpheme m).joiner? = none := rfl

@[simp] theorem Sign.joiner?_joiner (j : Joiner) : (joiner j).joiner? = some j := rfl

namespace Form

/-! ## Readings -/

/-- The morphemes and joiners in reading order. -/
def reading : Form → List Sign
  | leaf m => [.morpheme m]
  | join h j t => h.reading ++ .joiner j :: t.reading

/-- The joiners in reading order. -/
def joiners : Form → List Joiner
  | leaf _ => []
  | join h j t => h.joiners ++ j :: t.joiners

@[simp] theorem reading_leaf (m : Morpheme) : (leaf m).reading = [.morpheme m] := rfl

@[simp] theorem reading_join (h : Form) (j : Joiner) (t : Form) :
    (join h j t).reading = h.reading ++ .joiner j :: t.reading := rfl

@[simp] theorem joiners_leaf (m : Morpheme) : (leaf m).joiners = [] := rfl

@[simp] theorem joiners_join (h : Form) (j : Joiner) (t : Form) :
    (join h j t).joiners = h.joiners ++ j :: t.joiners := rfl

theorem filterMap_reading (f : Form) : f.reading.filterMap Sign.joiner? = f.joiners := by
  induction f with
  | leaf m => rfl
  | join h j t ihh iht => simp [ihh, iht]

theorem joiners_eq_of_reading {f g : Form} (h : f.reading = g.reading) : f.joiners = g.joiners := by
  rw [← filterMap_reading f, h, filterMap_reading]

/-- Morphemes and joiners alternate. -/
theorem length_reading (f : Form) : f.reading.length = 2 * f.joiners.length + 1 := by
  induction f with
  | leaf m => rfl
  | join h j t ihh iht =>
    simp only [reading_join, joiners_join, List.length_append, List.length_cons, ihh, iht]
    omega

/-! ## Joiners above joiners -/

/-- `Above f i k`: the joiner number `k` lies in the head or tail of the joiner number `i`, counted from
zero in reading order. -/
inductive Above : Form → Nat → Nat → Prop
  | inHead {h : Form} {j : Joiner} {t : Form} {k : Nat} (hk : k < h.joiners.length) :
      Above (join h j t) h.joiners.length k
  | inTail {h : Form} {j : Joiner} {t : Form} {k : Nat} (hk : k < t.joiners.length) :
      Above (join h j t) h.joiners.length (h.joiners.length + 1 + k)
  | head {h : Form} {j : Joiner} {t : Form} {i k : Nat} (hik : Above h i k) : Above (join h j t) i k
  | tail {h : Form} {j : Joiner} {t : Form} {i k : Nat} (hik : Above t i k) :
      Above (join h j t) (h.joiners.length + 1 + i) (h.joiners.length + 1 + k)

theorem Above.lt {f : Form} {i k : Nat} (hik : f.Above i k) :
    i < f.joiners.length ∧ k < f.joiners.length ∧ i ≠ k := by
  induction hik with
  | inHead hk => simp only [joiners_join, List.length_append, List.length_cons]; omega
  | inTail hk => simp only [joiners_join, List.length_append, List.length_cons]; omega
  | head _ ih => simp only [joiners_join, List.length_append, List.length_cons]; omega
  | tail _ ih => simp only [joiners_join, List.length_append, List.length_cons]; omega

variable {before : Nat → Nat → Prop}

/-- Of two forms with one reading that respect one order, neither has its root joiner further left. -/
theorem length_joiners_head_le (asymm : ∀ i k, before i k → ¬ before k i) {h t h' t' : Form}
    {j j' : Joiner}
    (hlen : (join h j t).joiners.length = (join h' j' t').joiners.length)
    (hf : ∀ i k, (join h j t).Above i k → before i k)
    (hg : ∀ i k, (join h' j' t').Above i k → before i k) :
    h'.joiners.length ≤ h.joiners.length := by
  by_contra hlt
  simp only [joiners_join, List.length_append, List.length_cons] at hlen
  obtain ⟨k, hk⟩ : ∃ k, h'.joiners.length = h.joiners.length + 1 + k :=
    ⟨h'.joiners.length - h.joiners.length - 1, by omega⟩
  have hdown := hf _ _ (.inTail (h := h) (j := j) (t := t) (k := k) (by omega))
  have hup := hg _ _ (.inHead (h := h') (j := j') (t := t') (k := h.joiners.length) (by omega))
  rw [← hk] at hdown
  exact asymm _ _ hdown hup

/-- The reading and an order of its joiners leave room for one form only. -/
theorem eq_of_reading_of_above (asymm : ∀ i k, before i k → ¬ before k i) {f g : Form}
    (hread : f.reading = g.reading) (hf : ∀ i k, f.Above i k → before i k)
    (hg : ∀ i k, g.Above i k → before i k) : f = g := by
  induction f generalizing g before with
  | leaf m =>
    have hlen := congrArg List.length hread
    rw [length_reading, length_reading] at hlen
    cases g with
    | leaf m' => simpa using hread
    | join h' j' t' => simp at hlen
  | join h j t ihh iht =>
    have hjoin := congrArg List.length (joiners_eq_of_reading hread)
    cases g with
    | leaf m' => simp at hjoin
    | join h' j' t' =>
      have hroot : h.joiners.length = h'.joiners.length :=
        Nat.le_antisymm (length_joiners_head_le asymm hjoin.symm hg hf)
          (length_joiners_head_le asymm hjoin hf hg)
      have hparts := List.append_inj hread (by rw [length_reading, length_reading, hroot])
      obtain ⟨hhead, hrest⟩ := hparts
      obtain ⟨hj, htail⟩ : Sign.joiner j = Sign.joiner j' ∧ t.reading = t'.reading := by
        simpa using hrest
      have heqh : h = h' :=
        ihh asymm hhead (fun i k hik => hf i k (.head hik)) (fun i k hik => hg i k (.head hik))
      -- the joiners of the tail are numbered on from the root
      have heqt : t = t' := by
        have hg' : ∀ i k, t'.Above i k →
            before (h.joiners.length + 1 + i) (h.joiners.length + 1 + k) := by
          intro i k hik
          rw [hroot]
          exact hg _ _ (.tail hik)
        exact iht (fun i k => asymm _ _) htail (fun i k hik => hf _ _ (.tail hik)) hg'
      rw [heqh, heqt, Sign.joiner.inj hj]

end Form

end Etymon
