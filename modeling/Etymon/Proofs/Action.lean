import Etymon.Action
import Mathlib.Data.List.Forall2

/-!
# Outcomes and actions

What a sequence of steps results in, told by what its steps result in.

## Main definitions

* `Action.Keeps`: an action leaves a part of the state as it is.
* `Action.Preserves`: an action leads from states with a property to such states.
* `Action.FailsWith`: every error that an action can end in is of one kind.

## Main results

* `mapM_eq_ok_iff`: a list of steps succeeds with the list of their results.
* `Action.result_bind`: one action after another.
-/

namespace Etymon

/-! ## Outcomes -/

section

variable {ε α β : Type}

theorem bind_eq_ok_iff {x : Except ε α} {f : α → Except ε β} {b : β} :
    x >>= f = .ok b ↔ ∃ a, x = .ok a ∧ f a = .ok b := by
  cases x <;> simp [bind, Except.bind]

theorem bind_eq_error_iff {x : Except ε α} {f : α → Except ε β} {e : ε} :
    x >>= f = .error e ↔ x = .error e ∨ ∃ a, x = .ok a ∧ f a = .error e := by
  cases x <;> simp [bind, Except.bind]

theorem map_eq_ok_iff {x : Except ε α} {f : α → β} {b : β} :
    x.map f = .ok b ↔ ∃ a, x = .ok a ∧ f a = b := by
  cases x <;> simp [Except.map]

theorem mapError_eq_ok_iff {δ : Type} {x : Except ε α} {f : ε → δ} {a : α} :
    x.mapError f = .ok a ↔ x = .ok a := by
  cases x <;> simp [Except.mapError]

theorem toOption_eq_some_iff {x : Except ε α} {a : α} : x.toOption = some a ↔ x = .ok a := by
  cases x <;> simp [Except.toOption]

theorem mapM_eq_ok_iff {f : α → Except ε β} {as : List α} {bs : List β} :
    as.mapM f = .ok bs ↔ List.Forall₂ (fun a b => f a = .ok b) as bs := by
  induction as generalizing bs with
  | nil => simp [pure, Except.pure, eq_comm]
  | cons a as ih =>
    rw [List.mapM_cons, bind_eq_ok_iff]
    simp only [bind_eq_ok_iff, pure, Except.pure, Except.ok.injEq, ih, List.forall₂_cons_left_iff]
    constructor
    · rintro ⟨b, hb, bs', hbs', rfl⟩
      exact ⟨b, bs', hb, hbs', rfl⟩
    · rintro ⟨b, bs', hb, hbs', rfl⟩
      exact ⟨b, hb, bs', hbs', rfl⟩

theorem exists_mapM_eq_ok_iff {f : α → Except ε β} {as : List α} :
    (∃ bs, as.mapM f = .ok bs) ↔ ∀ a ∈ as, ∃ b, f a = .ok b := by
  simp only [mapM_eq_ok_iff]
  induction as with
  | nil => simp
  | cons a as ih =>
    simp only [List.forall₂_cons_left_iff, List.forall_mem_cons, ← ih]
    constructor
    · rintro ⟨_, b, bs, hb, hbs, rfl⟩
      exact ⟨⟨b, hb⟩, bs, hbs⟩
    · rintro ⟨⟨b, hb⟩, bs, hbs⟩
      exact ⟨_, b, bs, hb, hbs, rfl⟩

theorem eq_error_of_mapM {f : α → Except ε β} {as : List α} {e : ε} (h : as.mapM f = .error e) :
    ∃ a ∈ as, f a = .error e := by
  induction as with
  | nil => simp [pure, Except.pure] at h
  | cons a as ih =>
    rw [List.mapM_cons] at h
    cases ha : f a with
    | error e' =>
      simp only [ha, bind, Except.bind, Except.error.injEq] at h
      exact ⟨a, by simp, h ▸ ha⟩
    | ok b =>
      cases hbs : as.mapM f with
      | error e' =>
        simp only [ha, hbs, bind, Except.bind, Except.error.injEq] at h
        obtain ⟨a', ha', hfa'⟩ := ih (h ▸ hbs)
        exact ⟨a', by simp [ha'], hfa'⟩
      | ok bs => simp [ha, hbs, bind, Except.bind, pure, Except.pure] at h

/-- Each step of a fold that succeeds has succeeded. -/
theorem exists_eq_ok_of_foldlM {f : β → α → Except ε β} {as : List α} {a : α} {b b' : β}
    (h : as.foldlM f b = .ok b') (ha : a ∈ as) : ∃ c c', f c a = .ok c' := by
  induction as generalizing b with
  | nil => cases ha
  | cons first as ih =>
    rw [List.foldlM_cons] at h
    obtain ⟨c, hfirst, hrest⟩ := bind_eq_ok_iff.1 h
    rcases List.mem_cons.1 ha with rfl | ha
    · exact ⟨b, c, hfirst⟩
    · exact ih hrest ha

/-- A fold gives what another one gives if its steps do. -/
theorem foldlM_of_steps {f g : β → α → Except ε β} (h : ∀ b a b', f b a = .ok b' → g b a = .ok b')
    {as : List α} {b b' : β} (hfold : as.foldlM f b = .ok b') : as.foldlM g b = .ok b' := by
  induction as generalizing b with
  | nil => exact hfold
  | cons a as ih =>
    rw [List.foldlM_cons] at hfold ⊢
    obtain ⟨next, hnext, hrest⟩ := bind_eq_ok_iff.1 hfold
    exact bind_eq_ok_iff.2 ⟨next, h b a next hnext, ih hrest⟩

/-- Two folds that agree step by step, where one asks something of what it is given that the other asks of
what comes of it. -/
theorem foldlM_and_iff {f g : β → α → Except ε β} {p : β → Prop}
    (h : ∀ b a b', f b a = .ok b' ∧ p b ↔ g b a = .ok b' ∧ p b') {as : List α} {b b' : β} :
    as.foldlM f b = .ok b' ∧ p b ↔ as.foldlM g b = .ok b' ∧ p b' := by
  induction as generalizing b with
  | nil =>
    simp only [List.foldlM_nil, pure, Except.pure, Except.ok.injEq]
    exact and_congr_right fun heq => heq ▸ Iff.rfl
  | cons a as ih =>
    simp only [List.foldlM_cons, bind_eq_ok_iff]
    constructor
    · rintro ⟨⟨next, hf, hrest⟩, hb⟩
      obtain ⟨hg, hnext⟩ := (h b a next).1 ⟨hf, hb⟩
      obtain ⟨hrest', hb'⟩ := ih.1 ⟨hrest, hnext⟩
      exact ⟨⟨next, hg, hrest'⟩, hb'⟩
    · rintro ⟨⟨next, hg, hrest⟩, hb'⟩
      obtain ⟨hrest', hnext⟩ := ih.2 ⟨hrest, hb'⟩
      obtain ⟨hf, hb⟩ := (h b a next).2 ⟨hg, hnext⟩
      exact ⟨⟨next, hf, hrest'⟩, hb⟩

/-- A fold whose steps all succeed is the fold of their results. -/
theorem foldlM_eq_ok_foldl {f : β → α → Except ε β} {g : β → α → β} {as : List α}
    (h : ∀ a ∈ as, ∀ b, f b a = .ok (g b a)) (b : β) : as.foldlM f b = .ok (as.foldl g b) := by
  induction as generalizing b with
  | nil => rfl
  | cons a as ih =>
    obtain ⟨ha, has⟩ := List.forall_mem_cons.1 h
    rw [List.foldlM_cons, ha, List.foldl_cons]
    exact ih has _

/-- What is on the right of a relation between lists has a partner on the left. -/
theorem exists_of_mem_forall₂ {R : α → β → Prop} {as : List α} {bs : List β}
    (h : List.Forall₂ R as bs) {b : β} (hb : b ∈ bs) : ∃ a ∈ as, R a b := by
  induction h with
  | nil => cases hb
  | @cons a b' as bs hab _ ih =>
    rcases List.mem_cons.1 hb with rfl | hb
    · exact ⟨a, by simp, hab⟩
    · obtain ⟨a', ha', hR⟩ := ih hb
      exact ⟨a', by simp [ha'], hR⟩

theorem exists_mem_zip_of_forall₂ {R : α → β → Prop} {as : List α} {bs : List β}
    (h : List.Forall₂ R as bs) {a : α} (ha : a ∈ as) : ∃ b, (a, b) ∈ as.zip bs ∧ R a b := by
  induction h with
  | nil => cases ha
  | @cons a' b as bs hab _ ih =>
    rcases List.mem_cons.1 ha with rfl | ha
    · exact ⟨b, by simp, hab⟩
    · obtain ⟨b', hb', hR⟩ := ih ha
      exact ⟨b', by simp [hb'], hR⟩

/-- Each item beside what it is related to, and itself. -/
theorem forall₂_zip {R : α → β → Prop} {as : List α} {bs : List β} (h : List.Forall₂ R as bs) :
    List.Forall₂ (fun a pair => a ∈ as ∧ R a pair.1 ∧ pair.2 = a) as (bs.zip as) := by
  induction h with
  | nil => exact .nil
  | cons hab _ ih =>
    refine .cons ⟨List.mem_cons_self, hab, rfl⟩ (ih.imp ?_)
    rintro a pair ⟨hmem, hpair⟩
    exact ⟨List.mem_cons_of_mem _ hmem, hpair⟩

theorem map_eq_map_of_forall₂ {γ : Type} {R : α → β → Prop} {f : α → γ} {g : β → γ} {as : List α}
    {bs : List β} (h : List.Forall₂ R as bs) (hfg : ∀ a b, R a b → f a = g b) :
    as.map f = bs.map g := by
  induction h with
  | nil => rfl
  | cons hab _ ih => rw [List.map_cons, List.map_cons, hfg _ _ hab, ih]

/-- A relation along a list of results, through the partners that they have in between. -/
theorem forall₂_iff_forall₂_exists {γ : Type} {R : α → β → Prop} {S : β → γ → Prop} {as : List α}
    {bs : List β} {cs : List γ} (h : List.Forall₂ R as bs)
    (hfun : ∀ a b b', R a b → R a b' → b = b') :
    List.Forall₂ S bs cs ↔ List.Forall₂ (fun a c => ∃ b, R a b ∧ S b c) as cs := by
  induction h generalizing cs with
  | nil => simp
  | @cons a b as bs hab _ ih =>
    simp only [List.forall₂_cons_left_iff, ih]
    constructor
    · rintro ⟨c, cs', hc, hcs, rfl⟩
      exact ⟨c, cs', ⟨b, hab, hc⟩, hcs, rfl⟩
    · rintro ⟨c, cs', ⟨b', hab', hc⟩, hcs, rfl⟩
      exact ⟨c, cs', hfun a b' b hab' hab ▸ hc, hcs, rfl⟩

/-- What each result of a relation has besides can be told of all results at once. -/
theorem forall₂_and_iff {R : α → β → Prop} {q : β → Prop} {as : List α} {bs : List β} :
    List.Forall₂ (fun a b => R a b ∧ q b) as bs ↔ List.Forall₂ R as bs ∧ ∀ b ∈ bs, q b := by
  induction as generalizing bs with
  | nil => cases bs <;> simp
  | cons a as ih =>
    cases bs with
    | nil => simp
    | cons b bs =>
      simp only [List.forall₂_cons, ih, List.forall_mem_cons]
      exact and_and_and_comm

theorem exists_forall₂_of_forall₂_exists {γ : Type} {R : α → β → Prop} {S : β → γ → Prop}
    {as : List α} {cs : List γ} (h : List.Forall₂ (fun a c => ∃ b, R a b ∧ S b c) as cs) :
    ∃ bs, List.Forall₂ R as bs := by
  induction h with
  | nil => exact ⟨[], .nil⟩
  | cons hac _ ih =>
    obtain ⟨b, hab, -⟩ := hac
    obtain ⟨bs, hbs⟩ := ih
    exact ⟨b :: bs, .cons hab hbs⟩

end

/-! ## Actions -/

namespace Action

section

variable {σ τ α β : Type}

@[simp] theorem result_pure (a : α) (s : σ) : (pure a : Action σ α).result s = (.ok a, s) := rfl

theorem result_bind (a : Action σ α) (f : α → Action σ β) (s : σ) :
    (a >>= f).result s =
      match a.result s with
      | (.ok x, t) => (f x).result t
      | (.error e, t) => (.error e, t) := by
  simp only [result, ExceptT.run_bind, StateT.run_bind]
  cases a.run.run s with
  | mk outcome t => cases outcome <;> rfl

@[simp] theorem result_get (s : σ) : (get : Action σ σ).result s = (.ok s, s) := rfl

@[simp] theorem result_modify (f : σ → σ) (s : σ) :
    (modify f : Action σ PUnit).result s = (.ok (), f s) := rfl

@[simp] theorem result_ofExcept (outcome : Except Error α) (s : σ) :
    (ofExcept outcome).result s = (outcome, s) := rfl

@[simp] theorem result_part (get : σ → τ) (set : τ → σ → σ) (a : Action τ α) (s : σ) :
    (part get set a).result s = ((a.result (get s)).1, set (a.result (get s)).2 s) := rfl

variable {a : Action σ α} {f : α → Action σ β} {s t : σ}

theorem result_bind_ok {x : α} (h : a.result s = (.ok x, t)) :
    (a >>= f).result s = (f x).result t := by
  rw [result_bind, h]

theorem result_bind_error {e : Error} (h : a.result s = (.error e, t)) :
    (a >>= f).result s = (.error e, t) := by
  rw [result_bind, h]

@[simp] theorem result_bind_get (f : σ → Action σ β) (s : σ) :
    ((get : Action σ σ) >>= f).result s = (f s).result s := rfl

@[simp] theorem result_bind_modify (g : σ → σ) (f : PUnit → Action σ β) (s : σ) :
    ((modify g : Action σ PUnit) >>= f).result s = (f ()).result (g s) := rfl

theorem result_ofExcept_eq_ok_iff {outcome : Except Error α} {x : α} :
    (ofExcept outcome).result s = (.ok x, t) ↔ outcome = .ok x ∧ t = s := by
  rw [result_ofExcept, Prod.mk.injEq, @eq_comm _ t]

/-- Two actions succeed one after the other when the second succeeds where the first has ended. -/
theorem result_bind_eq_ok_iff {a : Action σ α} {f : α → Action σ β} {s u : σ} {y : β} :
    (a >>= f).result s = (.ok y, u) ↔
      ∃ x t, a.result s = (.ok x, t) ∧ (f x).result t = (.ok y, u) := by
  rw [result_bind]
  rcases a.result s with ⟨e | x, t⟩ <;> simp

end

/-! ### What stays -/

section

variable {σ τ α β γ : Type} {part : σ → γ}

/-- The action leaves a part of the state as it is, however it ends. -/
def Keeps (part : σ → γ) (a : Action σ α) : Prop :=
  ∀ s, part (a.result s).2 = part s

theorem keeps_pure (a : α) : Keeps part (pure a : Action σ α) := fun _ => rfl

theorem keeps_ofExcept (outcome : Except Error α) : Keeps part (ofExcept outcome) := fun _ => rfl

theorem keeps_modify {f : σ → σ} (h : ∀ s, part (f s) = part s) :
    Keeps part (modify f : Action σ PUnit) := h

theorem keeps_bind {a : Action σ α} {f : α → Action σ β} (ha : Keeps part a)
    (hf : ∀ x, Keeps part (f x)) : Keeps part (a >>= f) := by
  intro s
  cases hresult : a.result s with
  | mk outcome t =>
    have ht : part t = part s := by rw [← ha s, hresult]
    cases outcome with
    | error e => rw [result_bind_error hresult, ht]
    | ok x => rw [result_bind_ok hresult, hf x t, ht]

theorem keeps_get_bind {f : σ → Action σ β} (hf : ∀ s, Keeps part (f s)) :
    Keeps part ((get : Action σ σ) >>= f) :=
  fun s => hf s s

/-- What holds of the state goes on to hold, however the action ends. -/
def Preserves (P : σ → Prop) (a : Action σ α) : Prop :=
  ∀ s, P s → P (a.result s).2

variable {P : σ → Prop}

theorem preserves_pure (a : α) : Preserves P (pure a : Action σ α) := fun _ hs => hs

theorem preserves_ofExcept (outcome : Except Error α) : Preserves P (ofExcept outcome) :=
  fun _ hs => hs

theorem preserves_bind {a : Action σ α} {f : α → Action σ β} (ha : Preserves P a)
    (hf : ∀ x, Preserves P (f x)) : Preserves P (a >>= f) := by
  intro s hs
  have ht := ha s hs
  rw [result_bind]
  rcases hresult : a.result s with ⟨e | x, t⟩
  · rw [hresult] at ht
    exact ht
  · rw [hresult] at ht
    exact hf x t ht

/-- What goes on after an action may rely on what its success tells. -/
theorem preserves_bind_of_ok {told : Prop} {a : Action σ α} {f : α → Action σ β} (ha : Preserves P a)
    (hok : ∀ s x t, P s → a.result s = (.ok x, t) → told) (hf : told → ∀ x, Preserves P (f x)) :
    Preserves P (a >>= f) := by
  intro s hs
  have ht := ha s hs
  rw [result_bind]
  rcases hresult : a.result s with ⟨e | x, t⟩
  · rw [hresult] at ht
    exact ht
  · rw [hresult] at ht
    exact hf (hok s x t hs hresult) x t ht

theorem preserves_get_bind {f : σ → Action σ β} (hf : ∀ s, Preserves P (f s)) :
    Preserves P ((get : Action σ σ) >>= f) :=
  fun s => hf s s

end

/-! ### Kinds of errors -/

section

variable {σ τ α β : Type} {P : Error → Prop}

/-- Every error that the action can end in is of the kind `P`. -/
def FailsWith (P : Error → Prop) (a : Action σ α) : Prop :=
  ∀ s e t, a.result s = (.error e, t) → P e

theorem failsWith_pure (a : α) : FailsWith P (pure a : Action σ α) := by
  intro s e t h
  simp at h

theorem failsWith_get : FailsWith P (get : Action σ σ) := by
  intro s e t h
  simp at h

theorem failsWith_modify (f : σ → σ) : FailsWith P (modify f : Action σ PUnit) := by
  intro s e t h
  simp at h

theorem failsWith_ofExcept {outcome : Except Error α} (h : ∀ e, outcome = .error e → P e) :
    FailsWith P (ofExcept outcome : Action σ α) := by
  intro s e t hresult
  rw [result_ofExcept, Prod.mk.injEq] at hresult
  exact h e hresult.1

theorem failsWith_part {get : σ → τ} {set : τ → σ → σ} {a : Action τ α} (h : FailsWith P a) :
    FailsWith P (part get set a) := by
  intro s e t hresult
  rw [result_part, Prod.mk.injEq] at hresult
  exact h (get s) e (a.result (get s)).2 (Prod.ext hresult.1 rfl)

/-- What comes second starts from what the first reached. -/
theorem failsWith_bind_of {a : Action σ α} {f : α → Action σ β} (ha : FailsWith P a)
    (hf : ∀ s x t, a.result s = (.ok x, t) → ∀ e u, (f x).result t = (.error e, u) → P e) :
    FailsWith P (a >>= f) := by
  intro s e t h
  cases hresult : a.result s with
  | mk outcome u =>
    cases outcome with
    | error e' =>
      rw [result_bind_error hresult, Prod.mk.injEq, Except.error.injEq] at h
      exact h.1 ▸ ha s e' u hresult
    | ok x =>
      rw [result_bind_ok hresult] at h
      exact hf s x u hresult e t h

theorem failsWith_bind {a : Action σ α} {f : α → Action σ β} (ha : FailsWith P a)
    (hf : ∀ x, FailsWith P (f x)) : FailsWith P (a >>= f) :=
  failsWith_bind_of ha fun _ x t _ => hf x t

end

end Action

end Etymon
