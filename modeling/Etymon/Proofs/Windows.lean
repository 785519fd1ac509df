import Etymon.Proofs.Plan

/-!
# Every rule applies once

On its way from a leaf to the root a text goes through windows of rules: through the window of every
side that starts elsewhere than its node, and in the end through the window of the root. One window
begins where the one before it stops, and together they hold every rule from the leaf's era on once.

## Main definitions

* `RuleOrder.rulesIn`: the rules of a window.
* `Query.routes`: the way of each leaf's text through the windows of a query.
* `Route.Complete`: the windows of a route line up and hold each rule once.

## Main results

* `Query.complete_of_mem_routes`: all routes of the query of a form are complete.
* `rules_apply_once`: this for every form, and no query of a plan runs backwards.
-/

namespace Etymon

abbrev Window := Option Era × Option Era

/-! ## Rules of a window -/

namespace RuleOrder

/-- How many rules a window leaves out that starts at an era; without an era it leaves none out. -/
def startPlace (order : RuleOrder) : Option Era → Nat
  | none => 0
  | some era => order.names.idxOf era.name

/-- How many rules come before the end of a window; without an era it ends behind the last rule. -/
def stopPlace (order : RuleOrder) : Option Era → Nat
  | none => order.names.length
  | some era => order.names.idxOf era.name

/-- The rules of a window in their order. -/
def rulesIn (order : RuleOrder) (w : Window) : List String :=
  (order.names.take (order.stopPlace w.2)).drop (order.startPlace w.1)

/-- Whether the file declares an era that is given. -/
def Knows (order : RuleOrder) (era : Option Era) : Prop :=
  ∀ e, era = some e → order.contains e = true

variable {order : RuleOrder}

theorem rank_some_of_contains {era : Era} (h : order.contains era = true) :
    order.rank (some era) = order.startPlace (some era) + 1 := by
  rw [contains, List.contains_iff_mem] at h
  rw [rank, startPlace]
  split
  · next hnone => exact absurd h (List.idxOf?_eq_none_iff.1 hnone)
  · next place hsome => rw [List.idxOf_eq_getD_idxOf?, hsome]; rfl

/-- Ranks of known eras are places of windows. -/
theorem startPlace_le_of_rank_le {a b : Option Era} (ha : order.Knows a) (hb : order.Knows b)
    (h : order.rank a ≤ order.rank b) : order.startPlace a ≤ order.startPlace b := by
  cases a with
  | none => exact Nat.zero_le _
  | some a =>
    rw [rank_some_of_contains (ha a rfl)] at h
    cases b with
    | none => simp at h
    | some b =>
      rw [rank_some_of_contains (hb b rfl)] at h
      omega

/-- Only no era ranks as low as no era. -/
theorem eq_none_of_rank_le {a : Option Era} (ha : order.Knows a) (h : order.rank a ≤ order.rank none) :
    a = none := by
  cases a with
  | none => rfl
  | some a =>
    rw [rank_some_of_contains (ha a rfl)] at h
    simp at h

theorem startPlace_le_length (era : Option Era) : order.startPlace era ≤ order.names.length := by
  cases era with
  | none => exact Nat.zero_le _
  | some era => exact List.idxOf_le_length

/-- A window does not run backwards when its eras have their ranks in order. -/
theorem startPlace_le_stopPlace_of_rank_le {a b : Option Era} (ha : order.Knows a)
    (hb : order.Knows b) (h : order.rank a ≤ order.rank b) :
    order.startPlace a ≤ order.stopPlace b := by
  cases b with
  | none => exact startPlace_le_length a
  | some b => exact startPlace_le_of_rank_le ha hb h

end RuleOrder

/-! ## Routes -/

/-- The way of a morpheme's text: the windows that take it to the engine, in order. -/
structure Route where
  morpheme : Morpheme
  windows : List Window
  deriving DecidableEq, Repr

def Route.extend (r : Route) (windows : List Window) : Route :=
  ⟨r.morpheme, r.windows ++ windows⟩

/-- A morpheme's windows line up from its era to the end, none of them runs backwards, and they hold
each rule from the morpheme's era on once, in order. -/
structure Route.Complete (order : RuleOrder) (r : Route) : Prop where
  begins : r.windows.head?.map Prod.fst = some r.morpheme.era
  ends : r.windows.getLast?.map Prod.snd = some none
  adjacent : r.windows.IsChain fun v w => v.2 = w.1
  forward : ∀ w ∈ r.windows, order.startPlace w.1 ≤ order.stopPlace w.2
  covers : r.windows.flatMap order.rulesIn = order.names.drop (order.startPlace r.morpheme.era)

namespace Query

/-- The window in which a side goes to the engine before it joins a node that starts at `start`. -/
def sideWindows (start : Option Era) (side : Query) : List Window :=
  if side.start = start then [] else [side.window]

/-- The routes of the leaves below a query up to its own start. -/
def innerRoutes : Query → List Route
  | leaf form start _ => [⟨⟨form, start⟩, []⟩]
  | node _ head tail start _ =>
    head.innerRoutes.map (·.extend (sideWindows start head)) ++
      tail.innerRoutes.map (·.extend (sideWindows start tail))

/-- The routes of all leaves of a root, in reading order; the root's window comes last. -/
def routes (root : Query) : List Route :=
  root.innerRoutes.map (·.extend [root.window])

theorem innerRoutes_upTo (joiner : Option Era) (side : Query) :
    (upTo joiner side).innerRoutes = side.innerRoutes := by
  cases joiner with
  | none => rfl
  | some era => cases side <;> rfl

end Query

/-- The windows lead forward from one era to another, and each of them stops at an era. -/
def Leads (order : RuleOrder) : Option Era → Option Era → List Window → Prop
  | a, b, [] => a = b
  | a, b, w :: rest =>
    w.1 = a ∧ w.2 ≠ none ∧ order.startPlace a ≤ order.startPlace w.2 ∧ Leads order w.2 b rest

section

variable {order : RuleOrder} {a b c : Option Era} {windows : List Window}

theorem Leads.append {windows' : List Window} (h : Leads order a b windows)
    (h' : Leads order b c windows') : Leads order a c (windows ++ windows') := by
  induction windows generalizing a with
  | nil =>
    rw [Leads] at h
    subst h
    exact h'
  | cons w rest ih =>
    obtain ⟨hstart, hstop, hle, hrest⟩ := h
    exact ⟨hstart, hstop, hle, ih hrest⟩

theorem RuleOrder.stopPlace_of_ne_none {era : Option Era} (h : era ≠ none) :
    order.stopPlace era = order.startPlace era := by
  cases era with
  | none => exact absurd rfl h
  | some era => rfl

/-- Windows that lead to an era and a last one from there on hold the rules from the first era on. -/
theorem Leads.flatMap_rulesIn (h : Leads order a b windows) :
    (windows ++ [(b, none)]).flatMap order.rulesIn = order.names.drop (order.startPlace a) := by
  induction windows generalizing a with
  | nil =>
    rw [Leads] at h
    simp [h, RuleOrder.rulesIn, RuleOrder.stopPlace]
  | cons w rest ih =>
    obtain ⟨rfl, hstop, hle, hrest⟩ := h
    rw [List.cons_append, List.flatMap_cons, ih hrest, RuleOrder.rulesIn,
      RuleOrder.stopPlace_of_ne_none hstop]
    -- the rules up to where the window stops, and those from there on
    calc (order.names.take (order.startPlace w.2)).drop (order.startPlace w.1) ++
          order.names.drop (order.startPlace w.2)
        = (order.names.take (order.startPlace w.2) ++
            order.names.drop (order.startPlace w.2)).drop (order.startPlace w.1) := by
          rw [List.drop_append_of_le_length]
          rw [List.length_take]
          exact Nat.le_min.2 ⟨hle, RuleOrder.startPlace_le_length _⟩
      _ = order.names.drop (order.startPlace w.1) := by rw [List.take_append_drop]

theorem Leads.isChain (h : Leads order a b windows) :
    (windows ++ [(b, none)]).IsChain fun v w : Window => v.2 = w.1 := by
  induction windows generalizing a with
  | nil => exact .singleton _
  | cons w rest ih =>
    obtain ⟨-, -, -, hrest⟩ := h
    cases rest with
    | nil => exact .cons_cons hrest (.singleton _)
    | cons w' rest' => exact .cons_cons hrest.1.symm (ih hrest)

theorem Leads.forward (h : Leads order a b windows) :
    ∀ w ∈ windows ++ [(b, none)], order.startPlace w.1 ≤ order.stopPlace w.2 := by
  induction windows generalizing a with
  | nil => simpa [RuleOrder.stopPlace] using RuleOrder.startPlace_le_length b
  | cons w rest ih =>
    obtain ⟨rfl, hstop, hle, hrest⟩ := h
    intro v hv
    rcases List.mem_cons.1 hv with rfl | hv
    · rwa [RuleOrder.stopPlace_of_ne_none hstop]
    · exact ih hrest v hv

theorem Leads.head (h : Leads order a b windows) :
    (windows ++ [(b, (none : Option Era))]).head?.map Prod.fst = some a := by
  cases windows with
  | nil =>
    rw [Leads] at h
    simp [h]
  | cons w rest => simp [h.1]

theorem Leads.complete {m : Morpheme} (h : Leads order m.era b windows) :
    (Route.mk m (windows ++ [(b, none)])).Complete order where
  begins := h.head
  ends := by simp
  adjacent := h.isChain
  forward := h.forward
  covers := h.flatMap_rulesIn

end

/-! ## Routes of forms -/

namespace Query

variable {order : RuleOrder} {f : Form} {q : Query}

theorem start_of_ofForm_leaf {m : Morpheme} (hq : ofForm order (.leaf m) = .ok q) :
    q = leaf m.form m.era none := by
  rw [ofForm_leaf, Except.ok.injEq] at hq
  exact hq.symm

/-- The start of a form's query is an era of the form. -/
theorem knows_start_of_ofForm (known : ∀ e ∈ f.eras, order.contains e = true)
    (hq : ofForm order f = .ok q) : order.Knows q.start := by
  intro e he
  cases f with
  | leaf m =>
    rw [start_of_ofForm_leaf hq, start] at he
    exact known e (by simp [Form.eras, he])
  | join h j t =>
    obtain ⟨head, tail, -, -, -, -, rfl⟩ := ofForm_join_eq_ok hq
    rw [start] at he
    exact known e (by simp [Form.eras, he])

/-- A side that starts elsewhere than its node leads forward to it. -/
theorem leads_sideWindows {side : Query} {joiner : Option Era} (hside : order.Knows side.start)
    (hjoiner : order.Knows joiner) (hstop : side.stop = none)
    (hrank : order.rank side.start ≤ order.rank joiner) :
    Leads order side.start joiner (sideWindows joiner (upTo joiner side)) := by
  rw [sideWindows, start_upTo]
  split
  · next heq => exact heq
  · next hne =>
    rw [window, start_upTo, stop_upTo hstop]
    refine ⟨rfl, ?_, RuleOrder.startPlace_le_of_rank_le hside hjoiner hrank, rfl⟩
    rintro rfl
    exact hne (RuleOrder.eq_none_of_rank_le hside hrank)

theorem leads_of_mem_innerRoutes (known : ∀ e ∈ f.eras, order.contains e = true)
    (hq : ofForm order f = .ok q) {r : Route} (hr : r ∈ q.innerRoutes) :
    Leads order r.morpheme.era q.start r.windows := by
  induction f generalizing q r with
  | leaf m =>
    rw [start_of_ofForm_leaf hq] at hr ⊢
    rw [innerRoutes, List.mem_singleton] at hr
    subst hr
    rfl
  | join h j t ihh iht =>
    obtain ⟨head, tail, hhead, htail, hheadRank, htailRank, rfl⟩ := ofForm_join_eq_ok hq
    have knownh : ∀ e ∈ h.eras, order.contains e = true :=
      fun e he => known e (by simp [Form.eras, he])
    have knownt : ∀ e ∈ t.eras, order.contains e = true :=
      fun e he => known e (by simp [Form.eras, he])
    have knownj : order.Knows j.era := fun e he => known e (by simp [Form.eras, he])
    rw [innerRoutes, innerRoutes_upTo, innerRoutes_upTo, List.mem_append, List.mem_map,
      List.mem_map] at hr
    rcases hr with ⟨inner, hinner, rfl⟩ | ⟨inner, hinner, rfl⟩
    · exact (ihh knownh hhead hinner).append (leads_sideWindows
        (knows_start_of_ofForm knownh hhead) knownj (stop_of_ofForm hhead) hheadRank)
    · exact (iht knownt htail hinner).append (leads_sideWindows
        (knows_start_of_ofForm knownt htail) knownj (stop_of_ofForm htail) htailRank)

/-- Each morpheme of a form has its route. -/
theorem map_morpheme_innerRoutes (hq : ofForm order f = .ok q) :
    q.innerRoutes.map Route.morpheme = f.leaves := by
  induction f generalizing q with
  | leaf m =>
    rw [start_of_ofForm_leaf hq]
    rfl
  | join h j t ihh iht =>
    obtain ⟨head, tail, hhead, htail, -, -, rfl⟩ := ofForm_join_eq_ok hq
    rw [innerRoutes, innerRoutes_upTo, innerRoutes_upTo, Form.leaves_join, ← ihh hhead, ← iht htail]
    simp [Function.comp_def, Route.extend]

theorem map_morpheme_routes (hq : ofForm order f = .ok q) :
    q.routes.map Route.morpheme = f.leaves := by
  rw [← map_morpheme_innerRoutes hq, routes, List.map_map]
  rfl

theorem complete_of_mem_routes (known : ∀ e ∈ f.eras, order.contains e = true)
    (hq : ofForm order f = .ok q) {r : Route} (hr : r ∈ q.routes) : r.Complete order := by
  rw [routes, List.mem_map] at hr
  obtain ⟨inner, hinner, rfl⟩ := hr
  rw [window, stop_of_ofForm hq]
  exact (leads_of_mem_innerRoutes known hq hinner).complete

theorem workBelow_upTo (joiner : Option Era) (side : Query) :
    (upTo joiner side).workBelow = side.workBelow := by
  cases joiner with
  | none => rfl
  | some era => cases side <;> rfl

/-- No query that a form brings about runs backwards. -/
theorem forward_of_mem_workBelow (known : ∀ e ∈ f.eras, order.contains e = true)
    (hq : ofForm order f = .ok q) {x : Query} (hx : x ∈ q.workBelow) :
    order.startPlace x.start ≤ order.stopPlace x.stop := by
  induction f generalizing q with
  | leaf m =>
    rw [start_of_ofForm_leaf hq] at hx
    cases hx
  | join h j t ihh iht =>
    obtain ⟨head, tail, hhead, htail, hheadRank, htailRank, rfl⟩ := ofForm_join_eq_ok hq
    have knownh : ∀ e ∈ h.eras, order.contains e = true :=
      fun e he => known e (by simp [Form.eras, he])
    have knownt : ∀ e ∈ t.eras, order.contains e = true :=
      fun e he => known e (by simp [Form.eras, he])
    have knownj : order.Knows j.era := fun e he => known e (by simp [Form.eras, he])
    rw [mem_workBelow_node, workBelow_upTo, workBelow_upTo] at hx
    rcases hx with (hx | ⟨rfl, -⟩) | (hx | ⟨rfl, -⟩)
    · exact ihh knownh hhead hx
    · rw [start_upTo, stop_upTo (stop_of_ofForm hhead)]
      exact RuleOrder.startPlace_le_stopPlace_of_rank_le (knows_start_of_ofForm knownh hhead)
        knownj hheadRank
    · exact iht knownt htail hx
    · rw [start_upTo, stop_upTo (stop_of_ofForm htail)]
      exact RuleOrder.startPlace_le_stopPlace_of_rank_le (knows_start_of_ofForm knownt htail)
        knownj htailRank

theorem forward_of_mem_work (known : ∀ e ∈ f.eras, order.contains e = true)
    (hq : ofForm order f = .ok q) {x : Query} (hx : x ∈ q.work) :
    order.startPlace x.start ≤ order.stopPlace x.stop := by
  rcases (mem_work_of_stop (stop_of_ofForm hq)).1 hx with hx | rfl
  · exact forward_of_mem_workBelow known hq hx
  · rw [stop_of_ofForm hq]
    exact RuleOrder.startPlace_le_length _

end Query

/-- No rule is skipped and none is applied twice: in the query of a form of known eras every morpheme
has its route, and the windows of a route hold each rule from the morpheme's era on once. No query of a
plan for such forms runs backwards. -/
theorem rules_apply_once (order : RuleOrder) :
    (∀ (f : Form) (q : Query), (∀ e ∈ f.eras, order.contains e = true) →
      Query.ofForm order f = .ok q →
        q.routes.map Route.morpheme = f.leaves ∧ ∀ r ∈ q.routes, r.Complete order) ∧
      ∀ (forms : List Form) (p : Plan), (∀ f ∈ forms, ∀ e ∈ f.eras, order.contains e = true) →
        Plan.ofForms order forms = .ok p →
          ∀ q ∈ p.queries, order.startPlace q.start ≤ order.stopPlace q.stop := by
  refine ⟨fun f q known hq => ⟨Query.map_morpheme_routes hq, fun r hr =>
    Query.complete_of_mem_routes known hq hr⟩, fun forms p known hp q hq => ?_⟩
  rw [(Plan.ofForms_eq_ok_iff.1 hp).2, Plan.mem_queries_ofRoots, List.mem_flatMap] at hq
  obtain ⟨root, hroot, hq⟩ := hq
  obtain ⟨f, hf, hfq⟩ := exists_of_mem_forall₂ (Plan.ofForms_eq_ok_iff.1 hp).1 hroot
  exact Query.forward_of_mem_work (known f hf) hfq hq

end Etymon
