import MoeJit.Lib.GuardedRun
import MoeJit.Topology.Hedera
import Mathlib.Algebra.BigOperators.GroupWithZero.Action
import Mathlib.Data.List.AList
import Mathlib.Tactic.Abel

/-!
# Link usage in the simulated annealing

`HederaRoutingHelper::updateRoutes` keeps the usage of the links beside the routes: it
calculates it once, and each accepted neighbor adds its difference. Usages are
exact here, in any commutative group.

`linkUsage_iff`: the usage is that of the current routes after every step if and only if
every accepted swap leaves the usage by flows inside a pod as it is. The calculation
skips these flows, a neighbor moves them like any other.
-/

namespace MoeJit.Hedera

open FatTree List Function
open Option (bind_eq_bind bind_some getD_some)

/-! ## 1. The helper -/

/-- A source and a destination. -/
abbrev Flow := Nat × Nat

abbrev Link := Nat × Nat

/-- A link without an entry has the usage 0. -/
abbrev LinkUsage (R : Type) := Link → R

abbrev FlowEstimations (R : Type) := AList fun _ : Flow => R

/-- Destination to core switch. -/
abbrev RouteMap := Nat → Option Nat

structure HederaRoutingHelper where
  order : HashOrder
  topology : FatTreeTopology
  podMap : SetMap

/-- The helper of a fat tree. -/
def helper (order : HashOrder) (k : Nat) : Option HederaRoutingHelper := do
  let podMap ← calculatePods order (topologyHedera k)
  some ⟨order, topologyHedera k, podMap⟩

/-- `std::views::adjacent<2>`. -/
def adjacent (route : List Nat) : List Link := route.zip route.tail

section

variable {R : Type} [AddCommGroup R]

/-- The loop over the links of a route. -/
def addRoute (linkUsage : LinkUsage R) (route : List Nat) (estimation : R) : LinkUsage R :=
  (adjacent route).foldl (fun m link => Function.update m link (m link + estimation)) linkUsage

namespace HederaRoutingHelper

variable (h : HederaRoutingHelper)

/-- The core switch of a destination and the route by way of it. -/
def routeOf (routes : RouteMap) (flow : Flow) (destination : Nat) : Option (List Nat) := do
  let core ← routes destination
  calculateRoute h.order h.topology flow.1 flow.2 core

/-- The pods are compared as pointers there, here as sets. -/
def samePod (flow : Flow) : Option Bool := do
  let source ← h.podMap flow.1
  let destination ← h.podMap flow.2
  some (decide (source = destination))

def calculateLinkUsage (routes : RouteMap) (flowEstimations : FlowEstimations R) :
    Option (LinkUsage R) :=
  flowEstimations.entries.foldlM (fun linkUsage p => do
    if ← h.samePod p.1 then some linkUsage
    else do
      let route ← h.routeOf routes p.1 p.1.2
      some (addRoute linkUsage route p.2)) fun _ => 0

/-- The loop over the flows to one of the two destinations. -/
def moveFlows (routes : RouteMap) (flowEstimations : FlowEstimations R)
    (affectedDestination otherDestination : Nat) (flows : List Flow)
    (affectedLinks : LinkUsage R) : Option (LinkUsage R) :=
  flows.foldlM (fun affectedLinks flow => do
    let originalRoute ← h.routeOf routes flow affectedDestination
    let newRoute ← h.routeOf routes flow otherDestination
    let estimation ← flowEstimations.lookup flow
    some (addRoute (addRoute affectedLinks originalRoute (-estimation)) newRoute estimation))
    affectedLinks

/-- The affected links of a neighbor; the change of the cost is left out. -/
def neighbor (routes : RouteMap) (flowEstimations : FlowEstimations R)
    (destinationToFlowMap : Nat → List Flow) (affectedDestination1 affectedDestination2 : Nat) :
    Option (LinkUsage R) := do
  let affectedLinks ← h.moveFlows routes flowEstimations affectedDestination1
    affectedDestination2 (destinationToFlowMap affectedDestination1) fun _ => 0
  h.moveFlows routes flowEstimations affectedDestination2 affectedDestination1
    (destinationToFlowMap affectedDestination2) affectedLinks

end HederaRoutingHelper

/-- The flows to a destination, each once. -/
def backwardFlowMap (flows : List Flow) (destination : Nat) : List Flow :=
  (flows.filter fun flow => flow.2 = destination).dedup

/-- A turn of the annealing: the two destinations that are sampled, and whether the
neighbor is accepted, which depends on its cost and on chance. -/
structure Turn (flows : List Flow) where
  affectedDestination1 : Nat
  affectedDestination2 : Nat
  accepted : Bool
  sampled : affectedDestination1 ∈ flows.map Prod.snd ∧ affectedDestination2 ∈ flows.map Prod.snd
  distinct : affectedDestination1 ≠ affectedDestination2

/-- What the turns change. -/
structure Annealing (R : Type) where
  routes : RouteMap
  linkUsage : LinkUsage R

/-- `std::swap` of two entries. -/
def swapRoutes (routes : RouteMap) (d d' : Nat) : RouteMap :=
  Function.update (Function.update routes d (routes d')) d' (routes d)

namespace HederaRoutingHelper

variable (h : HederaRoutingHelper) {flows : List Flow}

/-- One turn, unless a lookup has failed. -/
def turn (flowEstimations : FlowEstimations R) (s : Option (Annealing R)) (t : Turn flows) :
    Option (Annealing R) := do
  let s ← s
  let affectedLinks ← h.neighbor s.routes flowEstimations (backwardFlowMap flows)
    t.affectedDestination1 t.affectedDestination2
  if t.accepted then
    some {
      routes := swapRoutes s.routes t.affectedDestination1 t.affectedDestination2
      linkUsage := s.linkUsage + affectedLinks }
  else some s

/-- Before the first turn. -/
def beginAnnealing (routes : RouteMap) (flowEstimations : FlowEstimations R) :
    Option (Annealing R) := do
  let linkUsage ← h.calculateLinkUsage routes flowEstimations
  some { routes, linkUsage }

/-- `updateRoutes` with its estimations, up to some turn. -/
def updateRoutes (routes : RouteMap) (flowEstimations : FlowEstimations R)
    (turns : List (Turn flows)) : Option (Annealing R) :=
  turns.foldl (h.turn flowEstimations) (h.beginAnnealing routes flowEstimations)

end HederaRoutingHelper

/-! ## 2. Statement -/

/-- The usage that is kept is the one that would be calculated. -/
def Annealing.Recomputed (h : HederaRoutingHelper) (flowEstimations : FlowEstimations R)
    (s : Annealing R) : Prop :=
  h.calculateLinkUsage s.routes flowEstimations = some s.linkUsage

/-- The annealing is under way with the right usage. -/
def RightUsage (h : HederaRoutingHelper) (flowEstimations : FlowEstimations R)
    (s : Option (Annealing R)) : Prop :=
  ∃ s', s = some s' ∧ s'.Recomputed h flowEstimations

/-- The usage by the flows that the calculation skips. -/
def innerLinkUsage (h : HederaRoutingHelper) (routes : RouteMap)
    (flowEstimations : FlowEstimations R) : Option (LinkUsage R) :=
  flowEstimations.entries.foldlM (fun linkUsage p => do
    if ← h.samePod p.1 then
      let route ← h.routeOf routes p.1 p.1.2
      some (addRoute linkUsage route p.2)
    else some linkUsage) fun _ => 0

/-- A swap, when it is accepted, leaves the usage by flows inside pods as it is. -/
def KeepsInner (h : HederaRoutingHelper) (flowEstimations : FlowEstimations R) {flows : List Flow}
    (s : Option (Annealing R)) (t : Turn flows) : Prop :=
  ∀ s' ∈ s, t.accepted = true →
    innerLinkUsage h (swapRoutes s'.routes t.affectedDestination1 t.affectedDestination2)
      flowEstimations = innerLinkUsage h s'.routes flowEstimations

/-! ## 3. Sums -/

/-- The usage by one flow. -/
def pathUsage (route : List Nat) (estimation : R) : LinkUsage R :=
  fun link => (adjacent route).count link • estimation

theorem addRoute_eq (u : LinkUsage R) (route : List Nat) (estimation : R) :
    addRoute u route estimation = u + pathUsage route estimation := by
  unfold addRoute pathUsage
  induction adjacent route generalizing u with
  | nil =>
    funext link
    show u link = u link + 0 • estimation
    rw [zero_smul, add_zero]
  | cons l links ih =>
    rw [foldl_cons, ih]
    funext link
    show Function.update u l (u l + estimation) link + links.count link • estimation =
      u link + (l :: links).count link • estimation
    rw [count_cons]
    cases decEq l link with
    | isTrue heq =>
      subst heq
      rw [update_self, if_pos (beq_self_eq_true l), succ_nsmul', add_assoc]
    | isFalse hne =>
      rw [update_of_ne (Ne.symm hne), if_neg fun h => hne (eq_of_beq h), Nat.add_zero]

theorem pathUsage_neg (route : List Nat) (estimation : R) :
    pathUsage route (-estimation) = -pathUsage route estimation :=
  funext fun _ => smul_neg _ _

theorem foldlM_add {α : Type} {l : List α} {f : LinkUsage R → α → Option (LinkUsage R)}
    {g : α → LinkUsage R} (hf : ∀ a ∈ l, ∀ u, f u a = some (u + g a)) (u : LinkUsage R) :
    l.foldlM f u = some (u + (l.map g).sum) := by
  induction l generalizing u with
  | nil =>
    rw [map_nil, sum_nil, add_zero]
    rfl
  | cons a l ih =>
    rw [foldlM_cons, hf a mem_cons_self, map_cons, sum_cons, ← add_assoc]
    exact ih (fun b hb => hf b (mem_cons_of_mem a hb)) _

/-- The core switch of a destination. -/
def coreOf (routes : RouteMap) (destination : Nat) : Nat := (routes destination).getD 0

/-- Every destination has one of the core switches. -/
def Assigned (flows : List Flow) (cores : Nat → Prop) (routes : RouteMap) : Prop :=
  ∀ d ∈ flows.map Prod.snd, ∃ c, cores c ∧ routes d = some c

/-- All lookups succeed: every flow has its estimation, its pods, and a route by way of
every core switch. -/
structure Solved (h : HederaRoutingHelper) (flows : List Flow)
    (flowEstimations : FlowEstimations R) (cores : Nat → Prop) (inner : Flow → Bool)
    (path : Flow → Nat → List Nat) : Prop where
  keys : ∀ flow, flow ∈ flowEstimations ↔ flow ∈ flows
  pods : ∀ flow ∈ flows, h.samePod flow = some (inner flow)
  routes : ∀ flow ∈ flows, ∀ c, cores c →
    calculateRoute h.order h.topology flow.1 flow.2 c = some (path flow c)

variable {h : HederaRoutingHelper} {flows : List Flow} {flowEstimations : FlowEstimations R}
  {cores : Nat → Prop} {inner : Flow → Bool} {path : Flow → Nat → List Nat} {routes : RouteMap}

/-- The usage by a flow when its destination has the given core switch. -/
def use (flowEstimations : FlowEstimations R) (path : Flow → Nat → List Nat) (flow : Flow)
    (c : Nat) : LinkUsage R :=
  pathUsage (path flow c) ((flowEstimations.lookup flow).getD 0)

/-- The usage by the flows with a property. -/
def usage (flows : List Flow) (flowEstimations : FlowEstimations R)
    (path : Flow → Nat → List Nat) (p : Flow → Bool) (routes : RouteMap) : LinkUsage R :=
  ∑ flow ∈ flows.toFinset, if p flow then use flowEstimations path flow (coreOf routes flow.2) else 0

theorem Assigned.routes_eq (ha : Assigned flows cores routes) {flow : Flow} (hflow : flow ∈ flows) :
    cores (coreOf routes flow.2) ∧ routes flow.2 = some (coreOf routes flow.2) := by
  obtain ⟨c, hc, heq⟩ := ha flow.2 (mem_map_of_mem hflow)
  unfold coreOf
  rw [heq]
  exact ⟨hc, rfl⟩

section

variable (hs : Solved h flows flowEstimations cores inner path)
include hs

omit [AddCommGroup R] in
theorem Solved.routeOf (ha : Assigned flows cores routes) {flow flow' : Flow} (hflow : flow ∈ flows)
    (hflow' : flow' ∈ flows) :
    h.routeOf routes flow flow'.2 = some (path flow (coreOf routes flow'.2)) := by
  obtain ⟨hc, heq⟩ := ha.routes_eq hflow'
  unfold HederaRoutingHelper.routeOf
  rw [heq]
  exact hs.routes flow hflow _ hc

theorem Solved.lookup {flow : Flow} (hflow : flow ∈ flows) :
    flowEstimations.lookup flow = some ((flowEstimations.lookup flow).getD 0) := by
  cases hlook : flowEstimations.lookup flow with
  | none => exact absurd ((hs.keys flow).mpr hflow) (AList.lookup_eq_none.mp hlook)
  | some estimation => rfl

theorem Solved.sum_entries (g : Flow → R → LinkUsage R) :
    (flowEstimations.entries.map fun p => g p.1 p.2).sum =
      ∑ flow ∈ flows.toFinset, g flow ((flowEstimations.lookup flow).getD 0) := by
  have hkeys : flowEstimations.keys.toFinset = flows.toFinset := by
    ext flow
    rw [mem_toFinset, mem_toFinset, ← AList.mem_keys, hs.keys]
  have hvals : flowEstimations.entries.map (fun p => g p.1 p.2) =
      flowEstimations.keys.map fun flow => g flow ((flowEstimations.lookup flow).getD 0) := by
    rw [AList.keys, List.keys, map_map]
    refine map_congr_left fun p hp => ?_
    have hlook : flowEstimations.lookup p.1 = some p.2 := AList.mem_lookup_iff.mpr hp
    rw [comp_apply, hlook]
    rfl
  rw [hvals, ← hkeys, sum_toFinset _ flowEstimations.keys_nodup]

/-- A loop over the estimations that adds the usage by the flows with a property. -/
theorem Solved.foldlM_entries {f : LinkUsage R → (Sigma fun _ : Flow => R) → Option (LinkUsage R)}
    {p : Flow → Bool}
    (hf : ∀ flow ∈ flows, ∀ estimation u, f u ⟨flow, estimation⟩ = some (if p flow
      then addRoute u (path flow (coreOf routes flow.2)) estimation else u)) :
    flowEstimations.entries.foldlM f (fun _ => 0) =
      some (usage flows flowEstimations path p routes) := by
  rw [foldlM_add (g := fun q =>
    if p q.1 then pathUsage (path q.1 (coreOf routes q.1.2)) q.2 else 0) fun q hq u => ?_]
  · rw [hs.sum_entries fun flow estimation =>
      if p flow then pathUsage (path flow (coreOf routes flow.2)) estimation else 0]
    exact congrArg some (zero_add _)
  · have hflow : q.1 ∈ flows := (hs.keys q.1).mp (AList.mem_keys.mpr (mem_map_of_mem hq))
    rw [show q = ⟨q.1, q.2⟩ from rfl, hf q.1 hflow q.2 u]
    cases p q.1 with
    | false => exact congrArg some (add_zero u).symm
    | true => exact congrArg some (addRoute_eq _ _ _)

section

variable (ha : Assigned flows cores routes)
include ha

theorem Solved.calculateLinkUsage :
    h.calculateLinkUsage routes flowEstimations =
      some (usage flows flowEstimations path (fun flow => !inner flow) routes) := by
  refine hs.foldlM_entries fun flow hflow estimation u => ?_
  simp only [hs.pods flow hflow, hs.routeOf ha hflow hflow, bind_eq_bind, bind_some]
  cases inner flow with
  | false => rfl
  | true => rfl

theorem Solved.innerLinkUsage :
    innerLinkUsage h routes flowEstimations =
      some (usage flows flowEstimations path inner routes) := by
  refine hs.foldlM_entries fun flow hflow estimation u => ?_
  simp only [hs.pods flow hflow, hs.routeOf ha hflow hflow, bind_eq_bind, bind_some]
  cases inner flow with
  | false => rfl
  | true => rfl

theorem Solved.moveFlows {d d' : Nat}
    (hd : d ∈ flows.map Prod.snd) (hd' : d' ∈ flows.map Prod.snd) (u : LinkUsage R) :
    h.moveFlows routes flowEstimations d d' (backwardFlowMap flows d) u =
      some (u + ∑ flow ∈ flows.toFinset, if flow.2 = d
        then use flowEstimations path flow (coreOf routes d') -
          use flowEstimations path flow (coreOf routes d)
        else 0) := by
  obtain ⟨f, hf, rfl⟩ := mem_map.mp hd
  obtain ⟨f', hf', rfl⟩ := mem_map.mp hd'
  unfold HederaRoutingHelper.moveFlows backwardFlowMap
  rw [foldlM_add (g := fun flow => use flowEstimations path flow (coreOf routes f'.2) -
    use flowEstimations path flow (coreOf routes f.2)) fun flow hflow u => ?_]
  · rw [← sum_toFinset _ (nodup_dedup _),
      List.toFinset.ext fun _ => mem_dedup, toFinset_filter, Finset.sum_filter]
    simp only [decide_eq_true_eq]
  · have hmem : flow ∈ flows := (mem_filter.mp (mem_dedup.mp hflow)).1
    have hlook := hs.lookup hmem
    simp only [hs.routeOf ha hmem hf, hs.routeOf ha hmem hf', bind_eq_bind, bind_some]
    rw [hlook, bind_some, addRoute_eq, addRoute_eq, pathUsage_neg, add_assoc, neg_add_eq_sub]
    rfl

end

end

theorem swapRoutes_left {d d' : Nat} (hne : d ≠ d') : swapRoutes routes d d' d = routes d' := by
  rw [swapRoutes, update_of_ne hne, update_self]

theorem swapRoutes_right {d d' : Nat} : swapRoutes routes d d' d' = routes d := update_self ..

theorem swapRoutes_of_ne {d d' e : Nat} (h : e ≠ d) (h' : e ≠ d') :
    swapRoutes routes d d' e = routes e := by
  rw [swapRoutes, update_of_ne h', update_of_ne h]

theorem Assigned.swap (ha : Assigned flows cores routes) (t : Turn flows) :
    Assigned flows cores (swapRoutes routes t.affectedDestination1 t.affectedDestination2) := by
  intro d hd
  cases decEq d t.affectedDestination2 with
  | isTrue h =>
    rw [h, swapRoutes_right]
    exact ha _ t.sampled.1
  | isFalse h =>
    cases decEq d t.affectedDestination1 with
    | isTrue h' =>
      rw [h', swapRoutes_left t.distinct]
      exact ha _ t.sampled.2
    | isFalse h' =>
      rw [swapRoutes_of_ne h' h]
      exact ha d hd

/-- The affected links: all flows to the two destinations, inside pods or between. -/
theorem Solved.neighbor (hs : Solved h flows flowEstimations cores inner path)
    (ha : Assigned flows cores routes) (t : Turn flows) :
    h.neighbor routes flowEstimations (backwardFlowMap flows) t.affectedDestination1
        t.affectedDestination2 =
      some (usage flows flowEstimations path (fun _ => true)
          (swapRoutes routes t.affectedDestination1 t.affectedDestination2) -
        usage flows flowEstimations path (fun _ => true) routes) := by
  unfold HederaRoutingHelper.neighbor
  rw [hs.moveFlows ha t.sampled.1 t.sampled.2, bind_eq_bind, bind_some,
    hs.moveFlows ha t.sampled.2 t.sampled.1]
  congr 1
  unfold usage
  rw [← Finset.sum_sub_distrib]
  show 0 + _ + _ = _
  rw [zero_add, ← Finset.sum_add_distrib]
  refine Finset.sum_congr rfl fun flow _ => ?_
  rw [if_pos rfl, if_pos rfl]
  unfold coreOf
  cases decEq flow.2 t.affectedDestination2 with
  | isTrue h =>
    rw [h, if_neg t.distinct.symm, if_pos rfl, swapRoutes_right, zero_add]
  | isFalse h =>
    cases decEq flow.2 t.affectedDestination1 with
    | isTrue h' => rw [h', if_pos rfl, if_neg t.distinct, swapRoutes_left t.distinct, add_zero]
    | isFalse h' => rw [if_neg h, if_neg h', swapRoutes_of_ne h' h, sub_self, add_zero]

theorem usage_add_usage (inner : Flow → Bool) (routes : RouteMap) :
    usage flows flowEstimations path (fun flow => !inner flow) routes +
        usage flows flowEstimations path inner routes =
      usage flows flowEstimations path (fun _ => true) routes := by
  unfold usage
  rw [← Finset.sum_add_distrib]
  refine Finset.sum_congr rfl fun flow _ => ?_
  beta_reduce
  cases inner flow with
  | false => exact add_zero _
  | true => exact zero_add _

/-! ## 4. Runs -/

/-- A turn from a state with the right usage, with a usage that is right again exactly
if the flows inside pods do not matter. -/
theorem Solved.turn (hs : Solved h flows flowEstimations cores inner path) {s : Annealing R}
    (ha : Assigned flows cores s.routes) (hr : s.Recomputed h flowEstimations) (t : Turn flows) :
    ∃ s', h.turn flowEstimations (some s) t = some s' ∧ Assigned flows cores s'.routes ∧
      (s'.Recomputed h flowEstimations ↔ KeepsInner h flowEstimations (some s) t) := by
  have hr' := hr
  unfold Annealing.Recomputed at hr'
  rw [hs.calculateLinkUsage ha, Option.some.injEq] at hr'
  unfold HederaRoutingHelper.turn KeepsInner
  simp only [hs.neighbor ha t, bind_eq_bind, bind_some, Option.mem_some, forall_eq']
  cases t.accepted with
  | false => exact ⟨s, rfl, ha, iff_of_true hr fun h => absurd h Bool.false_ne_true⟩
  | true =>
    refine ⟨_, rfl, ha.swap t, ?_⟩
    unfold Annealing.Recomputed
    rw [hs.calculateLinkUsage (ha.swap t), hs.innerLinkUsage (ha.swap t), hs.innerLinkUsage ha,
      Option.some.injEq, Option.some.injEq, forall_prop_of_true rfl]
    show _ = s.linkUsage + (usage flows flowEstimations path (fun _ => true) _ -
      usage flows flowEstimations path (fun _ => true) s.routes) ↔ _
    rw [← hr', ← usage_add_usage inner, ← usage_add_usage inner]
    generalize usage flows flowEstimations path (fun flow => !inner flow) s.routes = outer
    generalize usage flows flowEstimations path (fun flow => !inner flow) _ = outer'
    generalize usage flows flowEstimations path inner s.routes = within
    generalize usage flows flowEstimations path inner _ = within'
    have hdiff : outer + (outer' + within' - (outer + within)) = outer' + (within' - within) := by
      abel
    rw [hdiff, left_eq_add, sub_eq_zero]

/-- The right usage, with a core switch for every destination. -/
def Sound (h : HederaRoutingHelper) (flows : List Flow) (flowEstimations : FlowEstimations R)
    (cores : Nat → Prop) (s : Option (Annealing R)) : Prop :=
  ∃ s', s = some s' ∧ Assigned flows cores s'.routes ∧ s'.Recomputed h flowEstimations

theorem Solved.always_iff (hs : Solved h flows flowEstimations cores inner path)
    (ha : Assigned flows cores routes) (turns : List (Turn flows)) :
    (∀ pre, pre <+: turns → RightUsage h flowEstimations (h.updateRoutes routes flowEstimations pre))
      ↔ Guarded (h.turn flowEstimations) (KeepsInner h flowEstimations)
        (h.beginAnnealing routes flowEstimations) turns := by
  have hbegin : Sound h flows flowEstimations cores (h.beginAnnealing routes flowEstimations) := by
    have hcalc := hs.calculateLinkUsage ha
    unfold HederaRoutingHelper.beginAnnealing
    rw [hcalc]
    exact ⟨_, rfl, ha, hcalc⟩
  have hstep (s : Option (Annealing R)) (t : Turn flows)
      (hsound : Sound h flows flowEstimations cores s) (hkeep : KeepsInner h flowEstimations s t) :
      Sound h flows flowEstimations cores (h.turn flowEstimations s t) := by
    obtain ⟨s, rfl, ha, hr⟩ := hsound
    obtain ⟨s', hs', ha', hiff⟩ := hs.turn ha hr t
    exact ⟨s', hs', ha', hiff.mpr hkeep⟩
  have hgood (s : Option (Annealing R)) (hsound : Sound h flows flowEstimations cores s) :
      RightUsage h flowEstimations s := by
    obtain ⟨s, rfl, -, hr⟩ := hsound
    exact ⟨s, rfl, hr⟩
  refine forall_prefix_iff_guarded hstep hgood (fun s t hsound hkeep hright => ?_) hbegin turns
  obtain ⟨s, rfl, ha, hr⟩ := hsound
  obtain ⟨s'', hs'', hr''⟩ := hright
  obtain ⟨s', hs', -, hiff⟩ := hs.turn ha hr t
  obtain rfl : s' = s'' := Option.some.inj (hs'.symm.trans hs'')
  exact hkeep (hiff.mp hr'')

/-! ## 5. The fat tree -/

variable {k : Nat}

/-- A flow between two servers. -/
def Between (k : Nat) (flow : Flow) : Prop :=
  ∃ v w, v < serverCount k ∧ w < serverCount k ∧ flow = (serverID k v, serverID k w)

/-- Servers have the same pod if they are of the same pod. -/
theorem samePod_spec (hk : 2 ≤ k) {order : HashOrder} {h : HederaRoutingHelper}
    (hh : helper order k = some h) {v w : Nat} (hv : v < serverCount k) (hw : w < serverCount k) :
    h.samePod (serverID k v, serverID k w) =
      some (decide (v / half k / half k = w / half k / half k)) := by
  obtain ⟨podMap, hpods, hset, -, -⟩ := calculatePods_spec hk order
  unfold helper at hh
  rw [hpods] at hh
  cases hh
  have hinV : InPod k (v / half k / half k) (serverID k v) := .server hv rfl
  have hinW : InPod k (w / half k / half k) (serverID k w) := .server hw rfl
  obtain ⟨S, hS, hmemS⟩ := hset _ _ ((server_lt hk).mp hv) hinV
  obtain ⟨T, hT, hmemT⟩ := hset _ _ ((server_lt hk).mp hw) hinW
  unfold HederaRoutingHelper.samePod
  simp only [hS, hT, bind_eq_bind, bind_some]
  congr 1
  refine decide_eq_decide.mpr ⟨fun heq => ?_, fun heq => ?_⟩
  · subst heq
    exact ((hmemT _).mp ((hmemS _).mpr hinV)).unique hinV |>.symm
  · ext x
    rw [hmemS, hmemT, heq]

omit [AddCommGroup R] in
theorem solved_fatTree (hk : 2 ≤ k) {order : HashOrder} {h : HederaRoutingHelper}
    (hh : helper order k = some h) (hflows : ∀ flow ∈ flows, Between k flow)
    (hkeys : ∀ flow, flow ∈ flowEstimations ↔ flow ∈ flows) :
    Solved h flows flowEstimations (fun c => c < coreCount k)
      (fun flow => (h.samePod flow).getD false)
      (fun flow c => (calculateRoute order (topologyHedera k) flow.1 flow.2 c).getD []) where
  keys := hkeys
  pods := by
    intro flow hflow
    obtain ⟨v, w, hv, hw, rfl⟩ := hflows flow hflow
    rw [samePod_spec hk hh hv hw]
    rfl
  routes := by
    intro flow hflow c hc
    obtain ⟨v, w, hv, hw, rfl⟩ := hflows flow hflow
    have hh' := hh
    unfold helper at hh'
    obtain ⟨podMap, hpods, -⟩ := calculatePods_spec hk order
    rw [hpods] at hh'
    cases hh'
    exact (calculateRoute_spec hk order hv hw hc).trans
      (congrArg (fun route => some (route.getD [])) (calculateRoute_spec hk order hv hw hc)).symm

theorem exists_helper (hk : 2 ≤ k) (order : HashOrder) : ∃ h, helper order k = some h := by
  obtain ⟨podMap, hpods, -⟩ := calculatePods_spec hk order
  unfold helper
  rw [hpods]
  exact ⟨_, rfl⟩

/-- In every fat tree, for flows between servers with whatever estimations and routes, the
link usage is right after every turn exactly when each accepted swap leaves the usage
by flows inside pods as it is. -/
theorem linkUsage_iff (hk : 2 ≤ k) (order : HashOrder) (flows : List Flow)
    (flowEstimations : FlowEstimations R) (routes : RouteMap)
    (hflows : ∀ flow ∈ flows, Between k flow)
    (hkeys : ∀ flow, flow ∈ flowEstimations ↔ flow ∈ flows)
    (hroutes : ∀ w, w < serverCount k → ∃ c, c < coreCount k ∧ routes (serverID k w) = some c)
    (turns : List (Turn flows)) :
    ∃ h, helper order k = some h ∧
      ((∀ pre, pre <+: turns →
          RightUsage h flowEstimations (h.updateRoutes routes flowEstimations pre)) ↔
        Guarded (h.turn flowEstimations) (KeepsInner h flowEstimations)
          (h.beginAnnealing routes flowEstimations) turns) := by
  obtain ⟨h, hh⟩ := exists_helper hk order
  refine ⟨h, hh, (solved_fatTree hk hh hflows hkeys).always_iff (fun d hd => ?_) turns⟩
  obtain ⟨flow, hflow, rfl⟩ := List.mem_map.mp hd
  obtain ⟨v, w, hv, hw, rfl⟩ := hflows flow hflow
  exact hroutes w hw

end

/-! ## 6. A flow inside a pod -/

/-- A flow inside the first pod of four, and one from there to the second. -/
def podFlows : List Flow := [(serverID 4 0, serverID 4 1), (serverID 4 2, serverID 4 4)]

/-- Neither shares a source or a destination: both have the full demand. -/
def fullDemand : FlowEstimations ℤ :=
  ⟨podFlows.map fun flow => ⟨flow, 1⟩, by unfold List.NodupKeys; decide⟩

/-- A core switch for each pod. -/
def podRoutes : RouteMap := fun host => some ((host - serverID 4 0) / 4)

/-- The two destinations are sampled and the swap is accepted. -/
def podSwap : Turn podFlows where
  affectedDestination1 := serverID 4 1
  affectedDestination2 := serverID 4 4
  accepted := true
  sampled := by decide
  distinct := by decide

theorem between_podFlows : ∀ flow ∈ podFlows, Between 4 flow := by
  intro flow hflow
  rcases mem_pair.mp hflow with rfl | rfl
  · exact ⟨0, 1, by decide, by decide, rfl⟩
  · exact ⟨2, 4, by decide, by decide, rfl⟩

theorem mem_fullDemand (flow : Flow) : flow ∈ fullDemand ↔ flow ∈ podFlows := by
  rw [AList.mem_keys]
  exact Iff.rfl

theorem podRoutes_spec {w : Nat} (hw : w < serverCount 4) :
    ∃ c, c < coreCount 4 ∧ podRoutes (serverID 4 w) = some c := by
  have hcount : serverCount 4 = 16 := rfl
  have hcore : coreCount 4 = 4 := rfl
  refine ⟨w / 4, by omega, ?_⟩
  unfold podRoutes serverID
  congr 2
  omega

theorem assigned_podFlows : Assigned podFlows (fun c => c < coreCount 4) podRoutes := by
  intro d hd
  obtain ⟨flow, hflow, rfl⟩ := mem_map.mp hd
  obtain ⟨v, w, -, hw, rfl⟩ := between_podFlows flow hflow
  exact podRoutes_spec hw

/-- What the flow inside the pod puts on the link to the second core switch. -/
theorem innerLinkUsage_podFlows {h : HederaRoutingHelper} (hh : helper sorted 4 = some h)
    {routes : RouteMap} (ha : Assigned podFlows (fun c => c < coreCount 4) routes) :
    ∃ u, innerLinkUsage h routes fullDemand = some u ∧ u (aggreID 4 0, coreID 1) =
        (adjacent (route 4 0 1 (coreOf routes (serverID 4 1)))).count (aggreID 4 0, coreID 1) := by
  have hs := solved_fatTree (by decide) hh between_podFlows mem_fullDemand
  refine ⟨_, hs.innerLinkUsage ha, ?_⟩
  have hroute := calculateRoute_spec (by decide) sorted (k := 4) (v := 0) (w := 1) (by decide)
    (by decide)
    (ha.routes_eq (show (serverID 4 0, serverID 4 1) ∈ podFlows from mem_cons_self)).1
  have hinner : h.samePod (serverID 4 0, serverID 4 1) = some true :=
    samePod_spec (by decide) hh (by decide) (by decide)
  have houter : h.samePod (serverID 4 2, serverID 4 4) = some false :=
    samePod_spec (by decide) hh (by decide) (by decide)
  have hlook : fullDemand.lookup (serverID 4 0, serverID 4 1) = some 1 := by decide
  unfold usage podFlows
  rw [sum_toFinset _ (by decide), map_cons, map_cons, map_nil, sum_cons, sum_cons, sum_nil]
  beta_reduce
  rw [hinner, houter, getD_some, getD_some, if_pos rfl,
    if_neg Bool.false_ne_true, add_zero, add_zero]
  unfold use pathUsage
  rw [hlook, getD_some, nsmul_one]
  exact congrArg (fun r => ((adjacent (r.getD [])).count (aggreID 4 0, coreID 1) : ℤ)) hroute

/-- The usage says that the flow inside the pod takes the second core switch; the
calculation leaves the flow out. -/
theorem inner_flow_moved : ∃ h, helper sorted 4 = some h ∧
    ¬RightUsage h fullDemand (h.updateRoutes podRoutes fullDemand [podSwap]) := by
  obtain ⟨h, hh⟩ := exists_helper (show 2 ≤ 4 by decide) sorted
  refine ⟨h, hh, ?_⟩
  have hs := solved_fatTree (show 2 ≤ 4 by decide) hh between_podFlows mem_fullDemand
  have hcalc := hs.calculateLinkUsage assigned_podFlows
  obtain ⟨s', hs', -, hiff⟩ := hs.turn (s := ⟨podRoutes, _⟩) assigned_podFlows hcalc podSwap
  rintro ⟨s'', hs'', hr''⟩
  unfold HederaRoutingHelper.updateRoutes HederaRoutingHelper.beginAnnealing at hs''
  rw [hcalc] at hs''
  obtain rfl : s' = s'' := Option.some.inj (hs'.symm.trans hs'')
  obtain ⟨u, hu, hlink⟩ := innerLinkUsage_podFlows hh assigned_podFlows
  obtain ⟨u', hu', hlink'⟩ := innerLinkUsage_podFlows hh (assigned_podFlows.swap podSwap)
  have hkeep := hiff.mp hr'' _ rfl rfl
  rw [hu, hu'] at hkeep
  rw [Option.some.inj hkeep, hlink] at hlink'
  revert hlink'
  decide

/-- The fat tree of four ports with these flows. -/
theorem linkUsage_iff_four : ∃ h, helper sorted 4 = some h ∧
    ((∀ pre, pre <+: [podSwap] →
        RightUsage h fullDemand (h.updateRoutes podRoutes fullDemand pre)) ↔
      Guarded (h.turn fullDemand) (KeepsInner h fullDemand)
        (h.beginAnnealing podRoutes fullDemand) [podSwap]) :=
  linkUsage_iff (by decide) sorted podFlows fullDemand podRoutes between_podFlows mem_fullDemand
    (fun _ hw => podRoutes_spec hw) [podSwap]

end MoeJit.Hedera
