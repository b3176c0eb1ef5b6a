import MoeJit.Topology.LinkUsage
import Mathlib.Tactic.Linarith

/-!
# The energy in the simulated annealing

The change of the energy that `HederaRoutingHelper::neighbor` returns with the affected links, over
any ordered field and with any function in place of `exp`.

`delta_iff`: it is the difference of the energies exactly when the changes of the affected links are
the usages that they have after the swap, in some order. `delta_iff_unused`: so that, with a function
that grows, none of them may be in use before.
-/

namespace MoeJit.Hedera

open FatTree List

/-! ## 1. Model -/

/-- The links with an entry. -/
abbrev LinkMap (K : Type) := AList fun _ : Link => K

/-- What `neighbor` returns. -/
structure NeighborState (K : Type) where
  affectedDestination1 : Nat
  affectedDestination2 : Nat
  delta : K
  affectedLinks : LinkMap K

variable {link : Link} {flow : Flow}

section

variable {K : Type} [Field K]

/-- The change of each link. -/
def LinkMap.change (links : LinkMap K) : LinkUsage K := fun link => (links.lookup link).getD 0

/-- The loop over the links of a route. -/
def addLinks (affectedLinks : LinkMap K) (route : List Nat) (estimation : K) : LinkMap K :=
  (adjacent route).foldl (fun links link => links.insert link (links.change link + estimation))
    affectedLinks

namespace HederaRoutingHelper

variable (h : HederaRoutingHelper)

/-- The loop over the flows to one of the two destinations. -/
def moveLinks (routes : RouteMap) (flowEstimations : FlowEstimations K)
    (affectedDestination otherDestination : Nat) (flows : List Flow) (affectedLinks : LinkMap K) :
    Option (LinkMap K) :=
  flows.foldlM (fun affectedLinks flow => do
    let originalRoute ← h.routeOf routes flow affectedDestination
    let newRoute ← h.routeOf routes flow otherDestination
    let estimation ← flowEstimations.lookup flow
    some (addLinks (addLinks affectedLinks originalRoute (-estimation)) newRoute estimation))
    affectedLinks

def affectedLinks (routes : RouteMap) (flowEstimations : FlowEstimations K)
    (destinationToFlowMap : Nat → List Flow) (affectedDestination1 affectedDestination2 : Nat) :
    Option (LinkMap K) := do
  let affectedLinks ← h.moveLinks routes flowEstimations affectedDestination1 affectedDestination2
    (destinationToFlowMap affectedDestination1) ∅
  h.moveLinks routes flowEstimations affectedDestination2 affectedDestination1
    (destinationToFlowMap affectedDestination2) affectedLinks

end HederaRoutingHelper

/-- The loop over the affected links. -/
def delta (exp : K → K) (linkUsage : LinkUsage K) (affectedLinks : LinkMap K) : K :=
  affectedLinks.entries.foldl
    (fun delta p => delta + exp (p.2 - 1) - exp (linkUsage p.1 - 1)) 0

/-- `neighbor`, once the destinations are sampled. -/
def HederaRoutingHelper.neighborState (h : HederaRoutingHelper) (exp : K → K) (routes : RouteMap)
    (flowEstimations : FlowEstimations K) (linkUsage : LinkUsage K)
    (destinationToFlowMap : Nat → List Flow) (affectedDestination1 affectedDestination2 : Nat) :
    Option (NeighborState K) := do
  let affectedLinks ← h.affectedLinks routes flowEstimations destinationToFlowMap
    affectedDestination1 affectedDestination2
  some {
    affectedDestination1
    affectedDestination2
    delta := delta exp linkUsage affectedLinks
    affectedLinks }

/-! ## 2. Statement -/

/-- The energy of some links. -/
def energy (exp : K → K) (links : Finset Link) (linkUsage : LinkUsage K) : K :=
  ∑ link ∈ links, exp (linkUsage link - 1)

/-- The change of the energy that a neighbor gives is that of all links, of which there may be any
besides the affected ones. -/
def NeighborState.RightDelta (exp : K → K) (linkUsage : LinkUsage K) (n : NeighborState K) : Prop :=
  ∀ links : Finset Link, n.affectedLinks.keys.toFinset ⊆ links →
    n.delta = energy exp links (linkUsage + n.affectedLinks.change) - energy exp links linkUsage

/-- The changes of the affected links are their usages after the swap, in some order. -/
def ChangesArePermuted (linkUsage : LinkUsage K) (affectedLinks : LinkMap K) : Prop :=
  (affectedLinks.keys.map affectedLinks.change).Perm
    (affectedLinks.keys.map (linkUsage + affectedLinks.change))

/-! ## 3. The affected links -/

theorem addLinks_change (links : LinkMap K) (route : List Nat) (estimation : K) :
    (addLinks links route estimation).change = addRoute links.change route estimation := by
  unfold addLinks addRoute
  induction adjacent route generalizing links with
  | nil => rfl
  | cons l route ih =>
    rw [foldl_cons, foldl_cons, ih]
    congr 1
    funext link
    unfold LinkMap.change
    cases decEq link l with
    | isTrue heq => rw [heq, AList.lookup_insert, Function.update_self, Option.getD_some]
    | isFalse hne => rw [AList.lookup_insert_ne hne, Function.update_of_ne hne]

/-- Links with entries keep them, and the links of the route get some. -/
theorem mem_addLinks {links : LinkMap K} {route : List Nat} {estimation : K} :
    link ∈ addLinks links route estimation ↔ link ∈ adjacent route ∨ link ∈ links := by
  unfold addLinks
  induction adjacent route generalizing links with
  | nil => simp
  | cons l route ih => rw [foldl_cons, ih, AList.mem_insert, mem_cons, ← or_assoc,
      or_comm (a := link ∈ route)]

variable {h : HederaRoutingHelper} {routes : RouteMap} {flowEstimations : FlowEstimations K}

theorem moveLinks_change {d d' : Nat} (flows : List Flow) (links : LinkMap K) :
    (h.moveLinks routes flowEstimations d d' flows links).map LinkMap.change =
      h.moveFlows routes flowEstimations d d' flows links.change := by
  unfold HederaRoutingHelper.moveLinks HederaRoutingHelper.moveFlows
  induction flows generalizing links with
  | nil => rfl
  | cons flow flows ih =>
    rw [foldlM_cons, foldlM_cons]
    cases h.routeOf routes flow d with
    | none => rfl
    | some originalRoute =>
      cases h.routeOf routes flow d' with
      | none => rfl
      | some newRoute =>
        cases flowEstimations.lookup flow with
        | none => rfl
        | some estimation =>
          refine (ih _).trans ?_
          rw [addLinks_change, addLinks_change]
          rfl

theorem affectedLinks_change (routes : RouteMap) (flowEstimations : FlowEstimations K)
    (destinationToFlowMap : Nat → List Flow) (d d' : Nat) :
    (h.affectedLinks routes flowEstimations destinationToFlowMap d d').map LinkMap.change =
      h.neighbor routes flowEstimations destinationToFlowMap d d' := by
  unfold HederaRoutingHelper.affectedLinks HederaRoutingHelper.neighbor
  have hfirst : (h.moveLinks routes flowEstimations d d' (destinationToFlowMap d) ∅).map
      LinkMap.change = h.moveFlows routes flowEstimations d d' (destinationToFlowMap d)
        (∅ : LinkMap K).change := moveLinks_change _ _
  have hempty : (∅ : LinkMap K).change = fun _ => 0 := rfl
  rw [hempty] at hfirst
  rw [← hfirst]
  cases h.moveLinks routes flowEstimations d d' (destinationToFlowMap d) ∅ with
  | none => rfl
  | some links => exact moveLinks_change _ links

/-- A flow is moved only if it has a route, and the links of the route get entries. -/
theorem mem_moveLinks {d d' : Nat} {flows : List Flow} {links links' : LinkMap K}
    (hmove : h.moveLinks routes flowEstimations d d' flows links = some links') :
    (∀ link ∈ links, link ∈ links') ∧ ∀ flow ∈ flows, ∃ route,
      h.routeOf routes flow d = some route ∧ ∀ link ∈ adjacent route, link ∈ links' := by
  unfold HederaRoutingHelper.moveLinks at hmove
  induction flows generalizing links with
  | nil =>
    cases hmove
    exact ⟨fun _ hlink => hlink, fun _ hflow => (nomatch hflow)⟩
  | cons flow flows ih =>
    rw [foldlM_cons] at hmove
    simp only [Option.bind_eq_bind, Option.bind_assoc, Option.bind_some,
      Option.bind_eq_some_iff] at hmove
    obtain ⟨originalRoute, horiginal, newRoute, -, estimation, -, hrest⟩ := hmove
    obtain ⟨hkeep, hrest⟩ := ih hrest
    refine ⟨fun link hlink => ?_, forall_mem_cons.mpr ⟨⟨originalRoute, horiginal, fun link hlink =>
      ?_⟩, hrest⟩⟩
    · exact hkeep link (mem_addLinks.mpr (.inr (mem_addLinks.mpr (.inr hlink))))
    · exact hkeep link (mem_addLinks.mpr (.inr (mem_addLinks.mpr (.inl hlink))))

theorem mem_affectedLinks {destinationToFlowMap : Nat → List Flow} {d d' : Nat} {links : LinkMap K}
    (hlinks : h.affectedLinks routes flowEstimations destinationToFlowMap d d' = some links)
    {route : List Nat} (hflow : flow ∈ destinationToFlowMap d)
    (hroute : h.routeOf routes flow d = some route) (hlink : link ∈ adjacent route) :
    link ∈ links := by
  unfold HederaRoutingHelper.affectedLinks at hlinks
  rw [Option.bind_eq_bind, Option.bind_eq_some_iff] at hlinks
  obtain ⟨middle, hfirst, hsecond⟩ := hlinks
  obtain ⟨route', hroute', hentries⟩ := (mem_moveLinks hfirst).2 flow hflow
  obtain rfl := Option.some.inj (hroute.symm.trans hroute')
  exact (mem_moveLinks hsecond).1 link (hentries link hlink)

/-! ## 4. The energy -/

variable {exp : K → K} {linkUsage : LinkUsage K} {links : LinkMap K}

theorem entries_map_change {S : Type} (f : Link → K → S) :
    links.entries.map (fun p => f p.1 p.2) = links.keys.map fun link => f link (links.change link) := by
  unfold AList.keys List.keys
  rw [map_map]
  refine map_congr_left fun p hp => ?_
  have hlook : links.lookup p.1 = some p.2 := AList.mem_lookup_iff.mpr hp
  show f p.1 p.2 = f p.1 (links.change p.1)
  unfold LinkMap.change
  rw [hlook, Option.getD_some]

theorem delta_eq : delta exp linkUsage links =
    (links.keys.map fun link => exp (links.change link - 1)).sum -
      (links.keys.map fun link => exp (linkUsage link - 1)).sum := by
  have hfold : ∀ (entries : List (Sigma fun _ : Link => K)) (start : K),
      entries.foldl (fun delta p => delta + exp (p.2 - 1) - exp (linkUsage p.1 - 1)) start =
        start + ((entries.map fun p => exp (p.2 - 1)).sum -
          (entries.map fun p => exp (linkUsage p.1 - 1)).sum) := by
    intro entries
    induction entries with
    | nil => simp
    | cons p entries ih =>
      intro start
      rw [foldl_cons, ih, map_cons, map_cons, sum_cons, sum_cons]
      abel
  unfold delta
  rw [hfold, zero_add, entries_map_change fun _ change => exp (change - 1),
    entries_map_change fun link _ => exp (linkUsage link - 1)]

theorem energy_sub {all : Finset Link} (hsubset : links.keys.toFinset ⊆ all) :
    energy exp all (linkUsage + links.change) - energy exp all linkUsage =
      (links.keys.map fun link => exp (linkUsage link + links.change link - 1)).sum -
        (links.keys.map fun link => exp (linkUsage link - 1)).sum := by
  unfold energy
  rw [← Finset.sum_sub_distrib, ← Finset.sum_subset hsubset, Finset.sum_sub_distrib,
    sum_toFinset _ links.keys_nodup, sum_toFinset _ links.keys_nodup]
  · rfl
  · intro link _ hnot
    have hnone : links.lookup link = none :=
      AList.lookup_eq_none.mpr fun hmem => hnot (mem_toFinset.mpr hmem)
    have hzero : links.change link = 0 := by
      unfold LinkMap.change
      rw [hnone, Option.getD_none]
    rw [Pi.add_apply, hzero, add_zero, sub_self]

theorem rightDelta_iff {n : NeighborState K}
    (hdelta : n.delta = delta exp linkUsage n.affectedLinks) :
    n.RightDelta exp linkUsage ↔
      (n.affectedLinks.keys.map fun link => exp (n.affectedLinks.change link - 1)).sum =
        (n.affectedLinks.keys.map fun link =>
          exp (linkUsage link + n.affectedLinks.change link - 1)).sum := by
  unfold NeighborState.RightDelta
  rw [hdelta, delta_eq]
  constructor
  · intro hright
    have hright := hright _ (Finset.Subset.refl _)
    rw [energy_sub (Finset.Subset.refl _)] at hright
    exact sub_left_injective hright
  · intro hsum links hsubset
    rw [energy_sub hsubset, hsum]

/-- Two lists have the same sum under every function only if they are permutations. -/
theorem perm_iff_sum_map [DecidableEq K] [CharZero K] {l l' : List K} :
    l.Perm l' ↔ ∀ f : K → K, (l.map f).sum = (l'.map f).sum := by
  constructor
  · exact fun hperm f => (hperm.map f).sum_eq
  · intro hsum
    rw [perm_iff_count]
    intro a
    have hcount : ∀ l : List K, (l.map fun x => if x = a then (1 : K) else 0).sum = l.count a := by
      intro l
      induction l with
      | nil => simp
      | cons x l ih =>
        rw [map_cons, sum_cons, ih, count_cons, Nat.cast_add, add_comm]
        simp only [beq_iff_eq, Nat.cast_ite, Nat.cast_one, Nat.cast_zero]
    have ha := hsum fun x => if x = a then 1 else 0
    rw [hcount, hcount] at ha
    exact_mod_cast ha

/-- Whatever the function in place of `exp`, the change of the energy is right exactly when the
changes of the affected links are their usages after the swap, in some order. -/
theorem delta_iff [CharZero K] (h : HederaRoutingHelper) (routes : RouteMap)
    (flowEstimations : FlowEstimations K) (linkUsage : LinkUsage K)
    (destinationToFlowMap : Nat → List Flow) (d d' : Nat) :
    (∀ exp n, h.neighborState exp routes flowEstimations linkUsage destinationToFlowMap d d' =
      some n → n.RightDelta exp linkUsage) ↔
    ∀ affectedLinks, h.affectedLinks routes flowEstimations destinationToFlowMap d d' =
      some affectedLinks → ChangesArePermuted linkUsage affectedLinks := by
  classical
  unfold HederaRoutingHelper.neighborState
  cases h.affectedLinks routes flowEstimations destinationToFlowMap d d' with
  | none => exact ⟨fun _ _ hnone => (nomatch hnone), fun _ _ _ hnone => (nomatch hnone)⟩
  | some links =>
    simp only [Option.bind_eq_bind, Option.bind_some, Option.some.injEq, forall_eq']
    unfold ChangesArePermuted
    rw [perm_iff_sum_map]
    constructor
    · intro hright f
      have hsum := (rightDelta_iff rfl).mp (hright fun x => f (x + 1))
      simp only [sub_add_cancel] at hsum
      rw [List.map_map, List.map_map]
      exact hsum
    · intro hperm exp
      have hsum := hperm fun x => exp (x - 1)
      rw [List.map_map, List.map_map] at hsum
      exact (rightDelta_iff rfl).mpr hsum

end

/-! ## 5. Links in use -/

section

variable {K : Type} [Field K] [LinearOrder K] [IsStrictOrderedRing K]

/-- With a function that grows and usages that are not negative, the change of the energy is right
exactly when no affected link is in use before the swap. -/
theorem delta_iff_unused {exp : K → K} (hexp : StrictMono exp) {linkUsage : LinkUsage K}
    (hnonneg : ∀ link, 0 ≤ linkUsage link) (h : HederaRoutingHelper) (routes : RouteMap)
    (flowEstimations : FlowEstimations K) (destinationToFlowMap : Nat → List Flow) (d d' : Nat) :
    (∀ n, h.neighborState exp routes flowEstimations linkUsage destinationToFlowMap d d' =
      some n → n.RightDelta exp linkUsage) ↔
    ∀ affectedLinks, h.affectedLinks routes flowEstimations destinationToFlowMap d d' =
      some affectedLinks → ∀ link ∈ affectedLinks, linkUsage link = 0 := by
  unfold HederaRoutingHelper.neighborState
  cases h.affectedLinks routes flowEstimations destinationToFlowMap d d' with
  | none => exact ⟨fun _ _ hnone => (nomatch hnone), fun _ _ hnone => (nomatch hnone)⟩
  | some links =>
    simp only [Option.bind_eq_bind, Option.bind_some, Option.some.injEq, forall_eq']
    rw [rightDelta_iff rfl]
    constructor
    · intro hsum link hlink
      by_contra hused
      refine hsum.not_lt (sum_lt_sum _ _ (fun l _ => ?_) ⟨link, hlink, ?_⟩)
      · exact hexp.monotone (sub_le_sub_right (le_add_of_nonneg_left (hnonneg l)) 1)
      · have hpos := lt_of_le_of_ne (hnonneg link) (Ne.symm hused)
        exact hexp (sub_lt_sub_right (lt_add_of_pos_left _ hpos) 1)
    · intro hunused
      refine congrArg List.sum (map_congr_left fun link hlink => ?_)
      rw [hunused link hlink, zero_add]

variable {h : HederaRoutingHelper} {flows : List Flow} {flowEstimations : FlowEstimations K}
  {cores : Nat → Prop} {inner : Flow → Bool} {path : Flow → Nat → List Nat} {routes : RouteMap}

theorem usage_pos (hnonneg : ∀ flow, 0 ≤ (flowEstimations.lookup flow).getD 0)
    (hflow : flow ∈ flows) {p : Flow → Bool} (hp : p flow = true)
    (hpos : 0 < (flowEstimations.lookup flow).getD 0)
    (hlink : link ∈ adjacent (path flow (coreOf routes flow.2))) :
    0 < usage flows flowEstimations path p routes link := by
  unfold usage
  rw [Finset.sum_apply]
  refine Finset.sum_pos' (fun flow' _ => ?_) ⟨flow, mem_toFinset.mpr hflow, ?_⟩
  · split
    · exact nsmul_nonneg (hnonneg flow') _
    · exact le_refl _
  · rw [if_pos hp]
    exact nsmul_pos hpos (count_pos_iff.mpr hlink).ne'

theorem usage_nonneg (hnonneg : ∀ flow, 0 ≤ (flowEstimations.lookup flow).getD 0) {p : Flow → Bool}
    (link : Link) : 0 ≤ usage flows flowEstimations path p routes link := by
  unfold usage
  rw [Finset.sum_apply]
  refine Finset.sum_nonneg fun flow' _ => ?_
  split
  · exact nsmul_nonneg (hnonneg flow') _
  · exact le_refl _

/-- So the change of the energy is wrong whenever a flow between pods with some demand goes to the
first of the two destinations. -/
theorem Solved.not_rightDelta (hs : Solved h flows flowEstimations cores inner path)
    (ha : Assigned flows cores routes) {exp : K → K} (hexp : StrictMono exp)
    (hnonneg : ∀ flow, 0 ≤ (flowEstimations.lookup flow).getD 0) (t : Turn flows)
    (hflow : flow ∈ flows) (hd : flow.2 = t.affectedDestination1) (hinner : inner flow = false)
    (hpos : 0 < (flowEstimations.lookup flow).getD 0)
    (hlinks : adjacent (path flow (coreOf routes flow.2)) ≠ []) :
    ∃ linkUsage, h.calculateLinkUsage routes flowEstimations = some linkUsage ∧
      ¬∀ n, h.neighborState exp routes flowEstimations linkUsage (backwardFlowMap flows)
        t.affectedDestination1 t.affectedDestination2 = some n → n.RightDelta exp linkUsage := by
  refine ⟨_, hs.calculateLinkUsage ha, ?_⟩
  rw [delta_iff_unused hexp fun link => usage_nonneg hnonneg link]
  intro hunused
  have hneighbor := hs.neighbor ha t
  rw [← affectedLinks_change, Option.map_eq_some_iff] at hneighbor
  obtain ⟨links, hlinks', -⟩ := hneighbor
  obtain ⟨link, hlink⟩ := exists_mem_of_ne_nil _ hlinks
  have hmem : flow ∈ backwardFlowMap flows t.affectedDestination1 :=
    mem_dedup.mpr (mem_filter.mpr ⟨hflow, decide_eq_true hd⟩)
  have hroute := hs.routeOf ha hflow hflow
  rw [hd] at hroute
  have hpositive := usage_pos (p := fun flow => !inner flow) hnonneg hflow (by rw [hinner]; rfl)
    hpos hlink
  rw [hd] at hlink
  have hused := hunused links hlinks' link (mem_affectedLinks hlinks' hmem hroute hlink)
  exact hpositive.ne' hused

end

/-! ## 6. A flow between pods -/

/-- The two flows with the full demand. -/
def podDemand : FlowEstimations ℚ :=
  ⟨podFlows.map fun flow => ⟨flow, 1⟩, by unfold List.NodupKeys; decide⟩

/-- Sampled in the other order. -/
def podTurn : Turn podFlows where
  affectedDestination1 := serverID 4 4
  affectedDestination2 := serverID 4 1
  accepted := false
  sampled := by decide
  distinct := by decide

/-- In the fat tree of four ports, with the calculated usage, the change of the energy is wrong. -/
theorem delta_wrong : ∃ h linkUsage, helper sorted 4 = some h ∧
    h.calculateLinkUsage podRoutes podDemand = some linkUsage ∧
    ¬∀ exp n, h.neighborState exp podRoutes podDemand linkUsage (backwardFlowMap podFlows)
      podTurn.affectedDestination1 podTurn.affectedDestination2 = some n →
        n.RightDelta exp linkUsage := by
  obtain ⟨h, hh⟩ := exists_helper (show 2 ≤ 4 by decide) sorted
  have hkeys : ∀ flow, flow ∈ podDemand ↔ flow ∈ podFlows := fun flow => by
    rw [AList.mem_keys]
    exact Iff.rfl
  have hs := solved_fatTree (show 2 ≤ 4 by decide) hh between_podFlows hkeys
  have hnonneg : ∀ flow, (0 : ℚ) ≤ (podDemand.lookup flow).getD 0 := by
    intro flow
    cases hlook : podDemand.lookup flow with
    | none => exact le_refl _
    | some estimation =>
      have hmem := AList.mem_lookup_iff.mp hlook
      obtain ⟨flow', -, heq⟩ := List.mem_map.mp hmem
      cases heq
      exact zero_le_one
  have houter : (h.samePod (serverID 4 2, serverID 4 4)).getD false = false := by
    rw [samePod_spec (by decide) hh (by decide) (by decide)]
    rfl
  have hroute := calculateRoute_spec (by decide) sorted (k := 4) (v := 2) (w := 4) (by decide)
    (by decide) (assigned_podFlows.routes_eq (show (serverID 4 2, serverID 4 4) ∈ podFlows by
      decide)).1
  obtain ⟨linkUsage, husage, hwrong⟩ := hs.not_rightDelta assigned_podFlows
    strictMono_id hnonneg podTurn (show (serverID 4 2, serverID 4 4) ∈ podFlows by decide) rfl
    houter (by decide) (ne_of_eq_of_ne (congrArg (fun r => adjacent (r.getD [])) hroute)
      (List.cons_ne_nil _ _))
  exact ⟨h, linkUsage, hh, husage, fun hright => hwrong (hright id)⟩

/-- The fat tree of four ports with these flows and idle links. -/
theorem delta_iff_four : ∃ h, helper sorted 4 = some h ∧
    ((∀ exp n, h.neighborState exp podRoutes podDemand (fun _ => 0) (backwardFlowMap podFlows)
        podTurn.affectedDestination1 podTurn.affectedDestination2 = some n →
          n.RightDelta exp fun _ => 0) ↔
      ∀ affectedLinks, h.affectedLinks podRoutes podDemand (backwardFlowMap podFlows)
        podTurn.affectedDestination1 podTurn.affectedDestination2 = some affectedLinks →
          ChangesArePermuted (fun _ => 0) affectedLinks) := by
  obtain ⟨h, hh⟩ := exists_helper (show 2 ≤ 4 by decide) sorted
  exact ⟨h, hh, delta_iff h podRoutes podDemand (fun _ => 0) (backwardFlowMap podFlows)
    podTurn.affectedDestination1 podTurn.affectedDestination2⟩

end MoeJit.Hedera
