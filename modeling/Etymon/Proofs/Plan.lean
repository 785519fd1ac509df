import Etymon.Plan
import Etymon.Proofs.Action
import Etymon.Proofs.Query
import Mathlib.Data.List.Nodup
import Mathlib.Data.List.Pairwise

/-!
# Plans emit the needed work in a runnable order

The queries of a plan are the roots and whatever they need, each once. They are sorted into layers and
windows, so that a batch only needs what earlier batches have brought.

## Main definitions

* `Needed`: the least set of queries that holds the roots and whatever its members need.
* `Plan.batches`, `Plan.queries`: what a plan runs, in order.
* `Supplied`: batches of which each finds what it needs among the earlier ones.

## Main results

* `Plan.mem_queries_iff_needed`: a plan emits exactly the needed queries.
* `Plan.nodup_queries`: it emits each of them once.
* `Plan.supplied_batches`: what a batch needs is emitted by the batches before it.
-/

namespace Etymon

/-! ## Sorted keys -/

section

variable {α : Type} [DecidableEq α] {lt : α → α → Bool}

theorem pairwise_insertKey (trans : ∀ a b c, lt a b = true → lt b c = true → lt a c = true)
    (total : ∀ a b, lt a b = false → a ≠ b → lt b a = true) (a : α) {items : List α}
    (h : items.Pairwise fun a b => lt a b = true) :
    (insertKey lt a items).Pairwise fun a b => lt a b = true := by
  induction items with
  | nil => simp [insertKey]
  | cons b rest ih =>
    obtain ⟨hb, hrest⟩ := List.pairwise_cons.1 h
    rw [insertKey]
    split
    · next hab =>
      refine List.pairwise_cons.2 ⟨fun c hc => ?_, h⟩
      rcases List.mem_cons.1 hc with rfl | hc
      · exact hab
      · exact trans _ _ _ hab (hb c hc)
    · next hab =>
      split
      · exact h
      · next hne =>
        refine List.pairwise_cons.2 ⟨fun c hc => ?_, ih hrest⟩
        rcases mem_insertKey.1 hc with rfl | hc
        · exact total _ _ (by simpa using hab) hne
        · exact hb c hc

theorem pairwise_sortedKeys (trans : ∀ a b c, lt a b = true → lt b c = true → lt a c = true)
    (total : ∀ a b, lt a b = false → a ≠ b → lt b a = true) (items : List α) :
    (sortedKeys lt items).Pairwise fun a b => lt a b = true := by
  induction items with
  | nil => simp [sortedKeys]
  | cons a rest ih => exact pairwise_insertKey trans total a ih

end

theorem pairwise_layerKeys (layers : List Nat) :
    (sortedKeys (fun a b => decide (a < b)) layers).Pairwise (· < ·) := by
  have h : (sortedKeys (fun a b => decide (a < b)) layers).Pairwise fun a b =>
      decide (a < b) = true :=
    pairwise_sortedKeys (fun a b c hab hbc => by simp only [decide_eq_true_eq] at *; omega)
      (fun a b hab hne => by simp only [decide_eq_true_eq, decide_eq_false_iff_not] at *; omega)
      layers
  exact h.imp fun hab => by simpa using hab

/-! ### The order of windows -/

theorem eraLt_trans {a b c : Option Era} (hab : eraLt a b = true) (hbc : eraLt b c = true) :
    eraLt a c = true := by
  cases c with
  | none => cases b <;> cases hbc
  | some c =>
    cases a with
    | none => rfl
    | some a =>
      cases b with
      | none => cases hab
      | some b =>
        simp only [eraLt, decide_eq_true_eq] at *
        exact String.lt_trans hab hbc

theorem eraLt_total {a b : Option Era} (hab : eraLt a b = false) (hne : a ≠ b) :
    eraLt b a = true := by
  cases a with
  | none => cases b <;> simp_all [eraLt]
  | some a =>
    cases b with
    | none => rfl
    | some b =>
      simp only [eraLt, decide_eq_true_eq, decide_eq_false_iff_not] at *
      refine Std.lt_of_le_of_ne (String.not_lt.1 hab) fun hname => hne ?_
      exact congrArg (fun name => some (Era.mk name)) hname.symm

theorem eraLt_irrefl (a : Option Era) : eraLt a a = false := by
  cases a with
  | none => rfl
  | some a => simp [eraLt]

theorem windowLt_trans {a b c : Option Era × Option Era} (hab : windowLt a b = true)
    (hbc : windowLt b c = true) : windowLt a c = true := by
  simp only [windowLt, Bool.or_eq_true, Bool.and_eq_true, beq_iff_eq] at *
  rcases hab with hab | ⟨hab, hab'⟩ <;> rcases hbc with hbc | ⟨hbc, hbc'⟩
  · exact .inl (eraLt_trans hab hbc)
  · exact .inl (hbc ▸ hab)
  · exact .inl (hab ▸ hbc)
  · exact .inr ⟨hab.trans hbc, eraLt_trans hab' hbc'⟩

theorem windowLt_total {a b : Option Era × Option Era} (hab : windowLt a b = false) (hne : a ≠ b) :
    windowLt b a = true := by
  simp only [windowLt, Bool.or_eq_false_iff, Bool.and_eq_false_iff, beq_eq_false_iff_ne,
    Bool.or_eq_true, Bool.and_eq_true, beq_iff_eq] at *
  obtain ⟨hstart, hstop⟩ := hab
  by_cases heq : a.1 = b.1
  · refine .inr ⟨heq.symm, eraLt_total (hstop.resolve_left fun h => h heq) fun hstop => ?_⟩
    exact hne (Prod.ext heq hstop)
  · exact .inl (eraLt_total hstart heq)

theorem nodup_windowKeys (windows : List (Option Era × Option Era)) :
    (sortedKeys windowLt windows).Nodup := by
  have h : (sortedKeys windowLt windows).Pairwise fun a b => windowLt a b = true :=
    pairwise_sortedKeys (fun a b c => @windowLt_trans a b c) (fun a b => @windowLt_total a b) windows
  refine h.imp ?_
  rintro a b hab rfl
  simp [windowLt, eraLt_irrefl] at hab

/-! ## The work of a root -/

/-- The least set of queries that holds the roots and whatever a member of it needs. -/
inductive Needed (roots : List Query) : Query → Prop
  | root {q : Query} (hq : q ∈ roots) : Needed roots q
  | step {q d : Query} (hq : Needed roots q) (hd : q.Needs d) : Needed roots d

theorem Needed.mono {roots roots' : List Query} {q : Query} (h : Needed roots q)
    (hroots : roots ⊆ roots') : Needed roots' q := by
  induction h with
  | root hq => exact .root (hroots hq)
  | step _ hd ih => exact ih.step hd

namespace Query

theorem isRootWork_of_stop {q : Query} (h : q.stop = none) : q.isRootWork = true := by
  rw [isRootWork, needsWork, h]
  cases q.start <;> rfl

theorem mem_workBelow_node {stress : Stress} {head tail : Query} {start stop : Option Era}
    {x : Query} : x ∈ (node stress head tail start stop).workBelow ↔
      (x ∈ head.workBelow ∨ x = head ∧ head.needsWork = true) ∨
        x ∈ tail.workBelow ∨ x = tail ∧ tail.needsWork = true := by
  simp only [workBelow, List.mem_append, List.mem_ite_nil_right, List.mem_singleton,
    and_comm (a := _ = true)]

/-- The dependencies of a linked query are among the work below it. -/
theorem mem_workBelow_of_mem_dependencies {q d : Query} (hq : q.Linked)
    (hd : d ∈ q.dependencies) : d ∈ q.workBelow := by
  induction q with
  | leaf form start stop => cases hd
  | node stress head tail start stop ihh iht =>
    obtain ⟨hheadStop, htailStop, hhead, htail⟩ := hq
    rw [mem_workBelow_node]
    rcases mem_dependencies_node.1 hd with hd | hd
    · split at hd
      · exact .inl (.inl (ihh hhead hd))
      · next hne =>
        exact .inl (.inr ⟨List.mem_singleton.1 hd, by rwa [needsWork, hheadStop, bne_iff_ne]⟩)
    · split at hd
      · exact .inr (.inl (iht htail hd))
      · next hne =>
        exact .inr (.inr ⟨List.mem_singleton.1 hd, by rwa [needsWork, htailStop, bne_iff_ne]⟩)

/-- The work below a linked query holds the dependencies of its members. -/
theorem mem_workBelow_trans {q x d : Query} (hq : q.Linked) (hx : x ∈ q.workBelow)
    (hd : d ∈ x.dependencies) : d ∈ q.workBelow := by
  induction q with
  | leaf form start stop => cases hx
  | node stress head tail start stop ihh iht =>
    obtain ⟨-, -, hhead, htail⟩ := hq
    rw [mem_workBelow_node] at hx ⊢
    rcases hx with (hx | ⟨rfl, -⟩) | (hx | ⟨rfl, -⟩)
    · exact .inl (.inl (ihh hhead hx))
    · exact .inl (.inl (mem_workBelow_of_mem_dependencies hhead hd))
    · exact .inr (.inl (iht htail hx))
    · exact .inr (.inl (mem_workBelow_of_mem_dependencies htail hd))

/-- Nothing more is below a linked query than what its dependencies bring about. -/
theorem of_mem_workBelow {P : Query → Prop} (closed : ∀ q d, P q → d ∈ q.dependencies → P d)
    {q x : Query} (hq : q.Linked) (hdep : ∀ d ∈ q.dependencies, P d) (hx : x ∈ q.workBelow) :
    P x := by
  induction q with
  | leaf form start stop => cases hx
  | node stress head tail start stop ihh iht =>
    obtain ⟨hheadStop, htailStop, hhead, htail⟩ := hq
    simp only [mem_dependencies_node] at hdep
    -- a side is looked up, or its own dependencies are the node's
    have hside : ∀ side : Query, side.stop = start →
        (∀ d ∈ if side.start = start then side.dependencies else [side], P d) →
        (side.needsWork = true → P side) ∧ ∀ d ∈ side.dependencies, P d := by
      intro side hstop hside
      by_cases heq : side.start = start
      · rw [if_pos heq] at hside
        exact ⟨fun hwork => by simp [needsWork, hstop, heq] at hwork, hside⟩
      · rw [if_neg heq] at hside
        have hP := hside side (by simp)
        exact ⟨fun _ => hP, fun d => closed side d hP⟩
    obtain ⟨hhead', hheadDep⟩ := hside head hheadStop fun d hd => hdep d (.inl hd)
    obtain ⟨htail', htailDep⟩ := hside tail htailStop fun d hd => hdep d (.inr hd)
    rcases mem_workBelow_node.1 hx with (hx | ⟨rfl, hwork⟩) | (hx | ⟨rfl, hwork⟩)
    · exact ihh hhead hheadDep hx
    · exact hhead' hwork
    · exact iht htail htailDep hx
    · exact htail' hwork

theorem mem_work_of_stop {root x : Query} (h : root.stop = none) :
    x ∈ root.work ↔ x ∈ root.workBelow ∨ x = root := by
  simp [work, isRootWork_of_stop h]

end Query

/-- The work of roots is what they need. -/
theorem mem_flatMap_work_iff {roots : List Query}
    (hroots : ∀ root ∈ roots, root.Linked ∧ root.stop = none) {x : Query} :
    x ∈ roots.flatMap Query.work ↔ Needed roots x := by
  rw [List.mem_flatMap]
  constructor
  · rintro ⟨root, hroot, hx⟩
    obtain ⟨hlinked, hstop⟩ := hroots root hroot
    have closed : ∀ q d, Needed roots q → d ∈ q.dependencies → Needed roots d :=
      fun q d hq hd => hq.step (Query.needs_iff.2 hd)
    rcases (Query.mem_work_of_stop hstop).1 hx with hx | rfl
    · exact Query.of_mem_workBelow closed hlinked (fun d => closed root d (.root hroot)) hx
    · exact .root hroot
  · intro hx
    induction hx with
    | root hq => exact ⟨_, hq, (Query.mem_work_of_stop (hroots _ hq).2).2 (.inr rfl)⟩
    | step hq hd ih =>
      obtain ⟨root, hroot, hx⟩ := ih
      obtain ⟨hlinked, hstop⟩ := hroots root hroot
      refine ⟨root, hroot, (Query.mem_work_of_stop hstop).2 (.inl ?_)⟩
      rcases (Query.mem_work_of_stop hstop).1 hx with hx | rfl
      · exact Query.mem_workBelow_trans hlinked hx (Query.needs_iff.1 hd)
      · exact Query.mem_workBelow_of_mem_dependencies hlinked (Query.needs_iff.1 hd)

/-! ## Batches and layers -/

def Batch.window (b : Batch) : Option Era × Option Era :=
  (b.start, b.stop)

namespace Plan

/-- The batches in the order in which they run. -/
def batches (p : Plan) : List Batch :=
  p.layers.flatMap Layer.batches

/-- Every query that is emitted, as often as it is. -/
def queries (p : Plan) : List Query :=
  p.batches.flatMap Batch.queries

end Plan

section

variable {queries : List Query} {b : Batch} {l : Layer} {q : Query}

theorem mem_batchesOf : b ∈ batchesOf queries ↔
    ∃ w ∈ queries.map Query.window, b = ⟨w.1, w.2, queries.filter fun q => q.window = w⟩ := by
  simp only [batchesOf, List.mem_map (b := b), mem_sortedKeys, eq_comm]

theorem mem_layersOf : l ∈ layersOf queries ↔
    ∃ i ∈ queries.map Query.layer, l = ⟨i, batchesOf (queries.filter fun q => q.layer = i)⟩ := by
  simp only [layersOf, List.mem_map (b := l), mem_sortedKeys, eq_comm]

/-- A batch holds the queries of its window. -/
theorem mem_queries_of_mem_batchesOf (hb : b ∈ batchesOf queries) :
    q ∈ b.queries ↔ q ∈ queries ∧ q.window = b.window := by
  obtain ⟨w, -, rfl⟩ := mem_batchesOf.1 hb
  simp [Batch.window]

theorem mem_flatMap_batchesOf : q ∈ (batchesOf queries).flatMap Batch.queries ↔ q ∈ queries := by
  rw [List.mem_flatMap]
  constructor
  · rintro ⟨b, hb, hq⟩
    exact ((mem_queries_of_mem_batchesOf hb).1 hq).1
  · intro hq
    have hb : ⟨q.start, q.stop, queries.filter fun r => r.window = q.window⟩ ∈ batchesOf queries :=
      mem_batchesOf.2 ⟨q.window, List.mem_map_of_mem hq, rfl⟩
    exact ⟨_, hb, (mem_queries_of_mem_batchesOf hb).2 ⟨hq, rfl⟩⟩

theorem nodup_windows_batchesOf : ((batchesOf queries).map Batch.window).Nodup := by
  rw [batchesOf, List.map_map]
  simpa [Function.comp_def, Batch.window] using nodup_windowKeys (queries.map Query.window)

theorem nodup_flatMap_batchesOf (h : queries.Nodup) :
    ((batchesOf queries).flatMap Batch.queries).Nodup := by
  rw [List.nodup_flatMap]
  constructor
  · intro b hb
    obtain ⟨w, -, rfl⟩ := mem_batchesOf.1 hb
    exact h.filter _
  · have hdiff : (batchesOf queries).Pairwise fun b c => b.window ≠ c.window :=
      List.pairwise_map.1 nodup_windows_batchesOf
    refine hdiff.imp_of_mem fun hb hc hne q hqb hqc => hne ?_
    rw [← ((mem_queries_of_mem_batchesOf hb).1 hqb).2, ← ((mem_queries_of_mem_batchesOf hc).1 hqc).2]

/-- A layer holds the queries of its number. -/
theorem mem_queries_of_mem_layersOf (hl : l ∈ layersOf queries) :
    q ∈ l.batches.flatMap Batch.queries ↔ q ∈ queries ∧ q.layer = l.index := by
  obtain ⟨i, -, rfl⟩ := mem_layersOf.1 hl
  rw [mem_flatMap_batchesOf]
  simp

theorem pairwise_index_layersOf : ((layersOf queries).map Layer.index).Pairwise (· < ·) := by
  rw [layersOf, List.map_map]
  simpa [Function.comp_def] using pairwise_layerKeys (queries.map Query.layer)

end

namespace Plan

variable {roots : List Query} {q : Query}

/-- The queries of a plan, before they are sorted. -/
theorem mem_queries_ofRoots : q ∈ (ofRoots roots).queries ↔ q ∈ roots.flatMap Query.work := by
  have hdistinct : q ∈ distinct (roots.flatMap Query.work) ↔ q ∈ roots.flatMap Query.work :=
    mem_distinct
  rw [← hdistinct, queries, batches, List.flatMap_assoc, List.mem_flatMap]
  constructor
  · rintro ⟨l, hl, hq⟩
    exact ((mem_queries_of_mem_layersOf hl).1 hq).1
  · intro hq
    have hl : ⟨q.layer, _⟩ ∈ (ofRoots roots).layers :=
      mem_layersOf.2 ⟨q.layer, List.mem_map_of_mem hq, rfl⟩
    exact ⟨_, hl, (mem_queries_of_mem_layersOf hl).2 ⟨hq, rfl⟩⟩

theorem nodup_queries_ofRoots : (ofRoots roots).queries.Nodup := by
  rw [queries, batches, List.flatMap_assoc, List.nodup_flatMap]
  constructor
  · intro l hl
    obtain ⟨i, -, rfl⟩ := mem_layersOf.1 hl
    exact nodup_flatMap_batchesOf ((nodup_distinct _).filter _)
  · refine (List.pairwise_map.1 pairwise_index_layersOf).imp_of_mem fun hl hm hlt q hql hqm => ?_
    have hl := ((mem_queries_of_mem_layersOf hl).1 hql).2
    have hm := ((mem_queries_of_mem_layersOf hm).1 hqm).2
    omega

/-- A query is emitted in the layer and in the batch that it belongs to. -/
theorem placed_of_mem_layers {l : Layer} {b : Batch} (hl : l ∈ (ofRoots roots).layers)
    (hb : b ∈ l.batches) (hq : q ∈ b.queries) : q.layer = l.index ∧ q.window = b.window := by
  refine ⟨((mem_queries_of_mem_layersOf hl).1 (List.mem_flatMap.2 ⟨b, hb, hq⟩)).2, ?_⟩
  obtain ⟨i, -, rfl⟩ := mem_layersOf.1 hl
  exact ((mem_queries_of_mem_batchesOf hb).1 hq).2

/-- Batches run in the order of their layers. -/
theorem pairwise_layer_batches_ofRoots : (ofRoots roots).batches.Pairwise fun b c =>
    ∀ q ∈ b.queries, ∀ r ∈ c.queries, q.layer ≤ r.layer := by
  rw [batches, List.pairwise_flatMap]
  constructor
  · intro l hl
    refine List.pairwise_of_forall_mem_list fun b hb c hc q hq r hr => ?_
    exact Nat.le_of_eq ((placed_of_mem_layers hl hb hq).1.trans (placed_of_mem_layers hl hc hr).1.symm)
  · refine (List.pairwise_map.1 pairwise_index_layersOf).imp_of_mem
      fun hl hm hlt b hb c hc q hq r hr => ?_
    rw [(placed_of_mem_layers hl hb hq).1, (placed_of_mem_layers hm hc hr).1]
    exact Nat.le_of_lt hlt

/-! ## Plans for forms -/

variable {order : RuleOrder} {forms : List Form} {p : Plan}

theorem ofForms_eq_ok_iff : ofForms order forms = .ok p ↔
    List.Forall₂ (fun f q => Query.ofForm order f = .ok q) forms p.roots ∧ p = ofRoots p.roots := by
  simp only [ofForms, bind_eq_ok_iff, mapM_eq_ok_iff, pure, Except.pure, Except.ok.injEq]
  constructor
  · rintro ⟨roots, hroots, rfl⟩
    exact ⟨hroots, rfl⟩
  · rintro ⟨hroots, hp⟩
    exact ⟨p.roots, hroots, hp.symm⟩

/-- Some of the forms of a plan have a plan, too. -/
theorem exists_ofForms_of_subset {order : RuleOrder} {forms forms' : List Form} {p : Plan}
    (hp : ofForms order forms = .ok p) (hforms : forms' ⊆ forms) :
    ∃ p', ofForms order forms' = .ok p' ∧ p'.roots ⊆ p.roots := by
  have hroot : ∀ f ∈ forms', ∃ q, Query.ofForm order f = .ok q ∧ q ∈ p.roots := by
    intro f hf
    obtain ⟨q, hmem, hq⟩ := exists_mem_zip_of_forall₂ (ofForms_eq_ok_iff.1 hp).1 (hforms hf)
    exact ⟨q, hq, (List.of_mem_zip hmem).2⟩
  obtain ⟨roots', hroots'⟩ := exists_mapM_eq_ok_iff.2 fun f hf => (hroot f hf).imp fun _ => And.left
  rw [mapM_eq_ok_iff] at hroots'
  refine ⟨.ofRoots roots', ofForms_eq_ok_iff.2 ⟨hroots', rfl⟩, fun q' hq' => ?_⟩
  obtain ⟨f, hf, hfq'⟩ := exists_of_mem_forall₂ hroots' hq'
  obtain ⟨q, hq, hmem⟩ := hroot f hf
  cases hq.symm.trans hfq'
  exact hmem

/-- The roots are queries of forms, so that they are linked and run behind the last rule. -/
theorem linked_of_mem_roots (hp : ofForms order forms = .ok p) :
    ∀ root ∈ p.roots, root.Linked ∧ root.stop = none := by
  intro root hroot
  obtain ⟨f, -, hf⟩ := exists_of_mem_forall₂ (ofForms_eq_ok_iff.1 hp).1 hroot
  exact ⟨Query.linked_of_ofForm hf, Query.stop_of_ofForm hf⟩

theorem mem_queries_iff_needed (hp : ofForms order forms = .ok p) :
    q ∈ p.queries ↔ Needed p.roots q := by
  rw [← mem_flatMap_work_iff (linked_of_mem_roots hp), ← mem_queries_ofRoots,
    ← (ofForms_eq_ok_iff.1 hp).2]

theorem nodup_queries (hp : ofForms order forms = .ok p) : p.queries.Nodup := by
  rw [(ofForms_eq_ok_iff.1 hp).2]
  exact nodup_queries_ofRoots

/-- What a query of a batch needs is emitted by a batch before it. -/
theorem emitted_before (hp : ofForms order forms = .ok p) {before after : List Batch} {b : Batch}
    (hb : p.batches = before ++ b :: after) {q d : Query} (hq : q ∈ b.queries)
    (hd : d ∈ q.dependencies) : ∃ c ∈ before, d ∈ c.queries := by
  have hemitted : d ∈ p.queries := by
    have hq : q ∈ p.queries := List.mem_flatMap.2 ⟨b, by simp [hb], hq⟩
    rw [mem_queries_iff_needed hp] at hq ⊢
    exact hq.step (Query.needs_iff.2 hd)
  obtain ⟨c, hc, hdc⟩ := List.mem_flatMap.1 hemitted
  have hlt := Query.layer_lt_of_mem_dependencies hd
  have hroots := (ofForms_eq_ok_iff.1 hp).2
  rw [hb, List.mem_append, List.mem_cons] at hc
  -- from `b` on, all layers are too high for the dependency
  rcases hc with hc | rfl | hc
  · exact ⟨c, hc, hdc⟩
  · obtain ⟨l, hl, hcl⟩ := List.mem_flatMap.1 (show c ∈ p.batches by simp [hb])
    rw [hroots] at hl
    have := (placed_of_mem_layers hl hcl hq).1
    have := (placed_of_mem_layers hl hcl hdc).1
    omega
  · have hsorted : (ofRoots p.roots).batches.Pairwise fun b c =>
        ∀ q ∈ b.queries, ∀ r ∈ c.queries, q.layer ≤ r.layer := pairwise_layer_batches_ofRoots
    rw [← hroots, hb] at hsorted
    have hlater := (List.pairwise_cons.1 (List.pairwise_append.1 hsorted).2.1).1 c hc
    have := hlater q hq d hdc
    omega

end Plan

/-- Every batch finds the dependencies of its queries among what was done before, or by the batches
before it. -/
def Supplied : List Query → List Batch → Prop
  | _, [] => True
  | done, b :: rest =>
    (∀ q ∈ b.queries, ∀ d ∈ q.dependencies, d ∈ done) ∧ Supplied (done ++ b.queries) rest

theorem Plan.supplied_batches {order : RuleOrder} {forms : List Form} {p : Plan}
    (hp : ofForms order forms = .ok p) : Supplied [] p.batches := by
  suffices h : ∀ before after, p.batches = before ++ after →
      Supplied (before.flatMap Batch.queries) after from h [] p.batches rfl
  intro before after hbatches
  induction after generalizing before with
  | nil => trivial
  | cons b rest ih =>
    refine ⟨fun q hq d hd => ?_, ?_⟩
    · obtain ⟨c, hc, hdc⟩ := emitted_before hp hbatches hq hd
      exact List.mem_flatMap.2 ⟨c, hc, hdc⟩
    · have hrest := ih (before ++ [b]) (by simp [hbatches])
      rwa [List.flatMap_append, List.flatMap_singleton] at hrest

end Etymon
