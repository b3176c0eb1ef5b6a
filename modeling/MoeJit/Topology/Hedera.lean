import MoeJit.Topology.FatTree

/-!
# Hedera routing

`HederaRouting` on the fat tree: the route of a flow goes up to the core switch that
is assigned to its destination and down again, and every node on the way finds its
next hop by calculating the route anew from the source and the destination of the
packet.

A node has one interface for each of its links, all of them up; an address is the
number of its network with the number of the host in it.

`hedera_forwarding`: the relations fit together, and between hosts of different pods
packets are delivered along the route.
-/

namespace MoeJit.Hedera

open PointToPoint FatTree List
open Option (bind_eq_bind bind_some)

/-! ## 1. Routes -/

/-- The first switch of a set whose own set contains `target`; it is asserted that
there is one. -/
def findSwitch (m : SetMap) (target : Nat) : List Nat → Option Nat
  | [] => none
  | aggregationSwitch :: rest => do
    let S ← m aggregationSwitch
    if target ∈ S then some aggregationSwitch else findSwitch m target rest

def calculateRoute (order : HashOrder) (topology : FatTreeTopology)
    (source destination coreSwitch : Nat) : Option (List Nat) := do
  let sourceEdgeSwitch ← topology.hostToEdge source
  let aggregationSwitches ← topology.edgeToAggregation sourceEdgeSwitch
  let sourceAggregation ←
    findSwitch topology.aggregationToCore coreSwitch (order.toList aggregationSwitches)
  let destinationEdgeSwitch ← topology.hostToEdge destination
  let aggregationSwitches ← topology.coreToAggregation coreSwitch
  let destinationAggregation ←
    findSwitch topology.aggregationToEdge destinationEdgeSwitch (order.toList aggregationSwitches)
  some [source, sourceEdgeSwitch, sourceAggregation, coreSwitch, destinationAggregation,
    destinationEdgeSwitch, destination]

/-! ## 2. Forwarding -/

/-- What the `HederaRouting` of all nodes share, with the subnet of each. -/
structure Routing where
  order : HashOrder
  topology : FatTreeTopology
  routes : Nat → Option Nat
  address_map : Address → Option Nat
  subnets : SetMap
  links : Nat × Nat → Option (Address × Address)

/-- All interfaces of the network, node by node. -/
def allInterfaces (nodeCount : Nat) (links : List (Nat × Nat)) : List (Nat × Interface Nat) :=
  (List.range nodeCount).flatMap fun node => (interfaces links node).map fun i => (node, i)

/-- `HederaRoutingHelper::notifyLinkChanges`, the addresses. -/
def notifyAddresses (nodeCount : Nat) (links : List (Nat × Nat)) : Address → Option Nat :=
  (allInterfaces nodeCount links).foldl
    (fun m p => Function.update m p.2.address (some p.1)) fun _ => none

/-- `HederaRoutingHelper::notifyLinkChanges`, the links. -/
def notifyLinks (nodeCount : Nat) (links : List (Nat × Nat)) :
    Nat × Nat → Option (Address × Address) :=
  (allInterfaces nodeCount links).foldl
    (fun m p => Function.update m (p.1, p.2.remote) (some (p.2.address, p.2.remoteAddress)))
    fun _ => none

def nodeCount (k : Nat) : Nat := coreCount k + aggreCount k + edgeCount k + serverCount k

/-- The routing that `main` sets up, with a core switch for some destinations. -/
def routing (order : HashOrder) (k : Nat) (routes : Nat → Option Nat) : Option Routing := do
  let podMap ← calculatePods order (topologyHedera k)
  some {
    order := order
    topology := topologyHedera k
    routes := routes
    address_map := notifyAddresses (nodeCount k) (links k)
    subnets := podMap
    links := notifyLinks (nodeCount k) (links k) }

structure Header where
  source : Address
  destination : Address

namespace Routing

variable (r : Routing) (net : List (Nat × Nat))

/-- The interface to the next hop of a node; none when the route ends there or does
not pass. -/
def outputInterface (route : List Nat) (currentNode : Nat) : Option (Option (Interface Nat)) :=
  match nextAfter currentNode route with
  | none => some none
  | some nextHop => do
    let (outputAddress, _) ← r.links (currentNode, nextHop)
    let out ← (interfaces net currentNode).find? fun i => i.address = outputAddress
    some (some out)

/-- The test for another routing protocol: both in the pod of the node or neither, or
no core switch for the destination. -/
def declines (subnet : Finset Nat) (sourceNode destinationNode : Nat) : Bool :=
  decide (sourceNode ∈ subnet) == decide (destinationNode ∈ subnet) ||
    (r.routes destinationNode).isNone

/-- `RouteOutput` without a given device: the interface to send from, or no route. -/
def routeOutput (currentNode : Nat) (destination : Address) :
    Option (Option (Interface Nat)) := do
  let destinationNode ← r.address_map destination
  let subnet ← r.subnets currentNode
  if r.declines subnet currentNode destinationNode then some none
  else do
    let coreSwitch ← r.routes destinationNode
    let route ← calculateRoute r.order r.topology currentNode destinationNode coreSwitch
    r.outputInterface net route currentNode

/-- What `RouteInput` does: local delivery, forwarding, or leaving the packet to
another protocol. -/
inductive Input
  | localDeliver
  | unicastForward (out : Interface Nat)
  | unhandled

def routeInput (currentNode : Nat) (header : Header) : Option Input :=
  if (interfaces net currentNode).any fun i => i.address = header.destination then
    some .localDeliver
  else do
    let sourceNode ← r.address_map header.source
    let destinationNode ← r.address_map header.destination
    let subnet ← r.subnets currentNode
    if currentNode ∉ r.topology.coreSwitches ∧ r.declines subnet sourceNode destinationNode then
      some .unhandled
    else do
      let coreSwitch ← r.routes destinationNode
      let route ← calculateRoute r.order r.topology sourceNode destinationNode coreSwitch
      match ← r.outputInterface net route currentNode with
      | none => some .unhandled
      | some out => some (.unicastForward out)

/-- A node with a packet: the packet goes to the other end of the link it is
forwarded on. -/
def decision (header : Header) (currentNode : Nat) : Decision Nat :=
  match r.routeInput net currentNode header with
  | some .localDeliver => .deliver
  | some (.unicastForward out) => .forward out.remote
  | _ => .drop

/-- The nodes that a packet of a host visits up to its delivery. Its source is the
address of the interface it leaves from. -/
def send (ttl : Nat) (sourceNode : Nat) (destination : Address) : Option (List Nat) :=
  match r.routeOutput net sourceNode destination with
  | some (some out) =>
    (walk (r.decision net ⟨out.address, destination⟩) ttl out.remote).map (sourceNode :: ·)
  | _ => none

end Routing

/-! ## 3. The tables -/

variable {net : List (Nat × Nat)}

theorem mem_allInterfaces {n : Nat} {p : Nat × Interface Nat} :
    p ∈ allInterfaces n net ↔ p.1 < n ∧ p.2 ∈ interfaces net p.1 := by
  simp only [allInterfaces, mem_flatMap, mem_range, mem_map]
  constructor
  · rintro ⟨x, hx, i, hi, rfl⟩
    exact ⟨hx, hi⟩
  · rintro ⟨hx, hi⟩
    exact ⟨p.1, hx, p.2, hi, rfl⟩

/-- An address is found to be that of its node. -/
theorem notifyAddresses_spec {n x : Nat} {i : Interface Nat} (hx : x < n)
    (hi : i ∈ interfaces net x) : notifyAddresses n net i.address = some x := by
  refine foldl_update _ _ _ (fun p hp hkey => ?_) ⟨(x, i), mem_allInterfaces.mpr ⟨hx, hi⟩, rfl⟩ _
  exact (eq_of_address (mem_allInterfaces.mp hp).2 hi hkey).1

/-- Nodes that are wired find an interface to each other. -/
theorem notifyLinks_spec {n x y : Nat} (hx : x < n) (h : Wired net x y) :
    ∃ i ∈ interfaces net x, i.remote = y ∧
      notifyLinks n net (x, y) = some (i.address, i.remoteAddress) := by
  obtain ⟨i, hi, hremote⟩ := wired_iff.mp h
  obtain ⟨⟨x', j⟩, hmem, hkey, hval⟩ := exists_foldl_update (k := (x, y)) (allInterfaces n net)
    (fun p => (p.1, p.2.remote)) (fun p => (p.2.address, p.2.remoteAddress))
    ⟨(x, i), mem_allInterfaces.mpr ⟨hx, hi⟩, Prod.ext rfl hremote⟩ fun _ => none
  obtain rfl : x' = x := congrArg Prod.fst hkey
  exact ⟨j, (mem_allInterfaces.mp hmem).2, congrArg Prod.snd hkey, hval⟩

/-- The output interface leads to the next hop. -/
theorem outputInterface_spec {r : Routing} {n x y : Nat} (route : List Nat)
    (hlinks : r.links = notifyLinks n net) (hx : x < n) (h : Wired net x y)
    (hnext : nextAfter x route = some y) :
    ∃ i ∈ interfaces net x, i.remote = y ∧ r.outputInterface net route x = some (some i) := by
  obtain ⟨i, hi, hremote, hlookup⟩ := notifyLinks_spec hx h
  refine ⟨i, hi, hremote, ?_⟩
  unfold Routing.outputInterface
  simp only [hnext, hlinks, hlookup, bind_eq_bind, bind_some, find_address hi]

/-! ## 4. The route -/

variable {l : List Nat} {c v w : Nat} {j : Interface Nat}

/-- The one switch that is related to the target is found in any order. -/
theorem findSwitch_spec {m : SetMap} {target a : Nat} (hall : ∀ b ∈ l, ∃ S, m b = some S)
    (ha : a ∈ l) (hrel : Related m a target) (honly : ∀ b ∈ l, Related m b target → b = a) :
    findSwitch m target l = some a := by
  induction l with
  | nil => cases ha
  | cons b l ih =>
    obtain ⟨S, hS⟩ := hall b mem_cons_self
    simp only [findSwitch, hS, bind_eq_bind, bind_some]
    split
    · next hmem => rw [honly b mem_cons_self ⟨S, hS, hmem⟩]
    · next hmem =>
      have hne : a ≠ b := by
        rintro rfl
        obtain ⟨S', hS', hmem'⟩ := hrel
        cases hS.symm.trans hS'
        exact hmem hmem'
      exact ih (fun b' hb' => hall b' (mem_cons_of_mem b hb')) (mem_of_ne_of_mem hne ha)
        fun b' hb' => honly b' (mem_cons_of_mem b hb')

section

variable {k : Nat}

/-- The aggregation switch of a pod and a group. -/
def joint (k p c : Nat) : Nat := p * half k + c / half k

/-- The route between two servers by way of a core switch. -/
def route (k v w c : Nat) : List Nat :=
  [serverID k v, edgeID k (v / half k), aggreID k (joint k (v / half k / half k) c), coreID c,
    aggreID k (joint k (w / half k / half k) c), edgeID k (w / half k), serverID k w]

theorem joint_div (hk : 2 ≤ k) {p : Nat} (hc : c < coreCount k) : joint k p c / half k = p := by
  rw [joint, mul_comm, Nat.mul_add_div (half_pos hk), Nat.div_eq_of_lt (div_half_lt hk hc),
    add_zero]

theorem joint_mod (hk : 2 ≤ k) {p : Nat} (hc : c < coreCount k) :
    joint k p c % half k = c / half k := by
  rw [joint, mul_comm, Nat.mul_add_mod, Nat.mod_eq_of_lt (div_half_lt hk hc)]

theorem eq_joint {a p : Nat} (hpod : a / half k = p) (hgroup : a % half k = c / half k) :
    a = joint k p c := by
  rw [joint, ← hpod, ← hgroup, mul_comm, Nat.div_add_mod]

theorem joint_edge_lt (hk : 2 ≤ k) {e : Nat} (he : e < edgeCount k) (hc : c < coreCount k) :
    joint k (e / half k) c < aggreCount k := by
  rw [pod_lt hk, joint_div hk hc]
  exact (pod_lt hk).mp he

theorem joint_lt (hk : 2 ≤ k) (hv : v < serverCount k) (hc : c < coreCount k) :
    joint k (v / half k / half k) c < aggreCount k :=
  joint_edge_lt hk ((edge_lt hk).mp hv) hc

theorem exists_sets (hk : 2 ≤ k) {a : Nat} (ha : a < aggreCount k) :
    (∃ S, (topologyHedera k).aggregationToCore (aggreID k a) = some S) ∧
    ∃ S, (topologyHedera k).aggregationToEdge (aggreID k a) = some S := by
  have hpos := half_pos hk
  constructor
  · have hgroup : a % half k * half k / half k = a % half k := Nat.mul_div_cancel _ hpos
    have hc : a % half k * half k < coreCount k :=
      Nat.mul_lt_mul_of_pos_right (Nat.mod_lt a hpos) hpos
    obtain ⟨S, hS, -⟩ := (related_aggregationToCore hk).mpr ⟨_, a, hc, ha, rfl, rfl, hgroup.symm⟩
    exact ⟨S, hS⟩
  · have hpod : a / half k * half k / half k = a / half k := Nat.mul_div_cancel _ hpos
    have he : a / half k * half k < edgeCount k := (pod_lt hk).mpr (hpod.symm ▸ (pod_lt hk).mp ha)
    obtain ⟨S, hS, -⟩ := (related_aggregationToEdge hk).mpr ⟨a, _, ha, he, rfl, rfl, hpod.symm⟩
    exact ⟨S, hS⟩

theorem find_up (hk : 2 ≤ k) {e : Nat} (he : e < edgeCount k) (hc : c < coreCount k)
    (hl : ∀ b, b ∈ l ↔ Related (topologyHedera k).edgeToAggregation (edgeID k e) b) :
    findSwitch (topologyHedera k).aggregationToCore (coreID c) l =
      some (aggreID k (joint k (e / half k) c)) := by
  have ha := joint_edge_lt hk he hc
  refine findSwitch_spec (fun b hb => ?_) ?_ ?_ fun b hb hrel => ?_
  · obtain ⟨a, -, ha, -, rfl, -, -⟩ := (related_edgeToAggregation hk).mp ((hl b).mp hb)
    exact (exists_sets hk ha).1
  · exact (hl _).mpr ((related_edgeToAggregation hk).mpr ⟨_, _, ha, he, rfl, rfl, joint_div hk hc⟩)
  · exact (related_aggregationToCore hk).mpr ⟨_, _, hc, ha, rfl, rfl, joint_mod hk hc⟩
  · obtain ⟨a, e', -, -, rfl, heq, hpod⟩ := (related_edgeToAggregation hk).mp ((hl b).mp hb)
    obtain ⟨c', a', -, -, hcore, heq', hgroup⟩ := (related_aggregationToCore hk).mp hrel
    obtain rfl : a = a' := Nat.add_left_cancel heq'
    obtain rfl : c = c' := hcore
    obtain rfl : e = e' := Nat.add_left_cancel heq
    rw [eq_joint hpod hgroup]

theorem find_down (hk : 2 ≤ k) {e : Nat} (he : e < edgeCount k) (hc : c < coreCount k)
    (hl : ∀ b, b ∈ l ↔ Related (topologyHedera k).coreToAggregation (coreID c) b) :
    findSwitch (topologyHedera k).aggregationToEdge (edgeID k e) l =
      some (aggreID k (joint k (e / half k) c)) := by
  have ha := joint_edge_lt hk he hc
  refine findSwitch_spec (fun b hb => ?_) ?_ ?_ fun b hb hrel => ?_
  · obtain ⟨-, a, -, ha, -, rfl, -⟩ := (related_coreToAggregation hk).mp ((hl b).mp hb)
    exact (exists_sets hk ha).2
  · exact (hl _).mpr ((related_coreToAggregation hk).mpr ⟨_, _, hc, ha, rfl, rfl, joint_mod hk hc⟩)
  · exact (related_aggregationToEdge hk).mpr ⟨_, _, ha, he, rfl, rfl, joint_div hk hc⟩
  · obtain ⟨c', a, -, -, hcore, rfl, hgroup⟩ := (related_coreToAggregation hk).mp ((hl b).mp hb)
    obtain ⟨a', e', -, -, heq', heq, hpod⟩ := (related_aggregationToEdge hk).mp hrel
    obtain rfl : a = a' := Nat.add_left_cancel heq'
    obtain rfl : c = c' := hcore
    obtain rfl : e = e' := Nat.add_left_cancel heq
    rw [eq_joint hpod hgroup]

/-- In any order of walking the sets the route is the same. -/
theorem calculateRoute_spec (hk : 2 ≤ k) (order : HashOrder) (hv : v < serverCount k)
    (hw : w < serverCount k) (hc : c < coreCount k) :
    calculateRoute order (topologyHedera k) (serverID k v) (serverID k w) (coreID c) =
      some (route k v w c) := by
  have hv' := hostToEdge_eq_some.mpr ⟨v, hv, rfl, rfl⟩
  have hw' := hostToEdge_eq_some.mpr ⟨w, hw, rfl, rfl⟩
  have hup : Related (topologyHedera k).edgeToAggregation (edgeID k (v / half k))
      (aggreID k (joint k (v / half k / half k) c)) :=
    (related_edgeToAggregation hk).mpr
      ⟨_, _, joint_lt hk hv hc, (edge_lt hk).mp hv, rfl, rfl, joint_div hk hc⟩
  have hdown : Related (topologyHedera k).coreToAggregation (coreID c)
      (aggreID k (joint k (w / half k / half k) c)) :=
    (related_coreToAggregation hk).mpr ⟨_, _, hc, joint_lt hk hw hc, rfl, rfl, joint_mod hk hc⟩
  obtain ⟨S, hS, hmemS⟩ := hup.lookup
  obtain ⟨T, hT, hmemT⟩ := hdown.lookup
  have hfind := find_up hk ((edge_lt hk).mp hv) hc fun b => (order.mem_toList S b).trans (hmemS b)
  have hfind' := find_down hk ((edge_lt hk).mp hw) hc fun b => (order.mem_toList T b).trans (hmemT b)
  simp only [calculateRoute, hv', hw', hS, hT, hfind, hfind', bind_eq_bind, bind_some]
  rfl

section

variable (hk : 2 ≤ k) (hv : v < serverCount k) (hw : w < serverCount k) (hc : c < coreCount k)
include hk hv hw hc

theorem route_wired : (route k v w c).IsChain (Wired (links k)) := by
  have hup := wired_edge hk ((edge_lt hk).mp hv) (joint_div hk hc)
  have hdown := wired_edge hk ((edge_lt hk).mp hw) (joint_div hk hc)
  have hcore := wired_core hk hc (joint_lt hk hv hc) (joint_mod hk hc)
  have hcore' := wired_core hk hc (joint_lt hk hw hc) (joint_mod hk hc)
  unfold route
  simp only [isChain_cons_cons, isChain_singleton, and_true]
  exact ⟨wired_server hk hv, hup, wired_symm hcore, hcore', wired_symm hdown,
    wired_symm (wired_server hk hw)⟩

theorem route_nodup (hpods : v / half k / half k ≠ w / half k / half k) :
    (route k v w c).Nodup := by
  have hedges : v / half k ≠ w / half k := fun h => hpods (congrArg (· / half k) h)
  have hjoints : joint k (v / half k / half k) c ≠ joint k (w / half k / half k) c := by
    intro h
    have hdiv := congrArg (· / half k) h
    simp only [joint_div hk hc] at hdiv
    exact hpods hdiv
  have hservers : v ≠ w := fun h => hpods (congrArg (· / half k / half k) h)
  have ha := joint_lt hk hv hc
  have ha' := joint_lt hk hw hc
  have he := (edge_lt hk).mp hv
  have he' := (edge_lt hk).mp hw
  unfold route
  generalize joint k (v / half k / half k) c = a at ha hjoints
  generalize joint k (w / half k / half k) c = a' at ha' hjoints
  generalize v / half k = e at he hedges
  generalize w / half k = e' at he' hedges
  simp only [nodup_cons, mem_cons, not_mem_nil, or_false, not_or, nodup_nil,
    not_false_eq_true, and_true, serverID, edgeID, aggreID, coreID]
  omega

/-- The nodes of the route: the core switch and nodes of the two pods. -/
theorem mem_route {x : Nat} (hx : x ∈ route k v w c) :
    x = coreID c ∨ InPod k (v / half k / half k) x ∨ InPod k (w / half k / half k) x := by
  unfold route at hx
  simp only [mem_cons, not_mem_nil, or_false] at hx
  rcases hx with rfl | rfl | rfl | rfl | rfl | rfl | rfl
  · exact .inr (.inl (.server hv rfl))
  · exact .inr (.inl (.edge ((edge_lt hk).mp hv) rfl))
  · exact .inr (.inl (.aggre (joint_lt hk hv hc) (joint_div hk hc)))
  · exact .inl rfl
  · exact .inr (.inr (.aggre (joint_lt hk hw hc) (joint_div hk hc)))
  · exact .inr (.inr (.edge ((edge_lt hk).mp hw) rfl))
  · exact .inr (.inr (.server hw rfl))

end

theorem InPod.lt_nodeCount {p x : Nat} (h : InPod k p x) : x < nodeCount k := by
  unfold nodeCount
  cases h with
  | server hv _ => simp only [serverID]; omega
  | edge he _ => simp only [edgeID]; omega
  | aggre ha _ => simp only [aggreID]; omega

theorem node_lt {p q x : Nat} (hc : c < coreCount k) (hx : x = coreID c ∨ InPod k p x ∨ InPod k q x)
    : x < nodeCount k := by
  rcases hx with hx | hx | hx
  · unfold coreID at hx
    unfold nodeCount
    omega
  · exact InPod.lt_nodeCount hx
  · exact InPod.lt_nodeCount hx

/-! ## 5. Hop by hop -/

/-- The routing that is set up. -/
structure RoutingOk (order : HashOrder) (k : Nat) (routes : Nat → Option Nat) (r : Routing) :
    Prop where
  order_eq : r.order = order
  topology : r.topology = topologyHedera k
  routes : r.routes = routes
  address_map : r.address_map = notifyAddresses (nodeCount k) (links k)
  links : r.links = notifyLinks (nodeCount k) (FatTree.links k)
  subnet : ∀ p x, p < k → InPod k p x → ∃ S, r.subnets x = some S ∧ ∀ y, y ∈ S ↔ InPod k p y
  core : ∀ x, x < coreCount k → r.subnets x = some ∅
  related : ∀ x y, Related r.subnets x y ↔ ∃ p, p < k ∧ InPod k p x ∧ InPod k p y

theorem exists_routing (hk : 2 ≤ k) (order : HashOrder) (routes : Nat → Option Nat) :
    ∃ r, routing order k routes = some r ∧ RoutingOk order k routes r := by
  obtain ⟨podMap, hpods, hsubnet, hcore, hrelated⟩ := calculatePods_spec hk order
  unfold routing
  simp only [hpods, bind_eq_bind, bind_some]
  exact ⟨_, rfl, rfl, rfl, rfl, rfl, rfl, hsubnet, hcore, hrelated⟩

variable {order : HashOrder} {routes : Nat → Option Nat} {r : Routing}

/-- The nodes of two pods see that just one of two servers is their own. -/
theorem RoutingOk.not_declines (hok : RoutingOk order k routes r) {p : Nat} {S : Finset Nat}
    (hv : v < serverCount k) (hw : w < serverCount k)
    (hpods : v / half k / half k ≠ w / half k / half k) (hroute : routes (serverID k w) = some c)
    (hS : ∀ y, y ∈ S ↔ InPod k p y) (hp : p = v / half k / half k ∨ p = w / half k / half k) :
    r.declines S (serverID k v) (serverID k w) = false := by
  have hvS : serverID k v ∈ S ↔ p = v / half k / half k := by
    rw [hS]
    exact ⟨fun h => h.unique (.server hv rfl), fun h => .server hv h.symm⟩
  have hwS : serverID k w ∈ S ↔ p = w / half k / half k := by
    rw [hS]
    exact ⟨fun h => h.unique (.server hw rfl), fun h => .server hw h.symm⟩
  unfold Routing.declines
  rw [hok.routes, hroute]
  cases hp with
  | inl hp =>
    have hnot : serverID k w ∉ S := fun h => hpods (hp.symm.trans (hwS.mp h))
    rw [decide_eq_true (hvS.mpr hp), decide_eq_false hnot]
    rfl
  | inr hp =>
    have hnot : serverID k v ∉ S := fun h => hpods ((hvS.mp h).symm.trans hp)
    rw [decide_eq_true (hwS.mpr hp), decide_eq_false hnot]
    rfl

theorem RoutingOk.address (hok : RoutingOk order k routes r) (hw : w < serverCount k)
    (hj : j ∈ interfaces (FatTree.links k) (serverID k w)) :
    r.address_map j.address = some (serverID k w) := by
  rw [hok.address_map]
  exact notifyAddresses_spec (InPod.lt_nodeCount (.server hw rfl)) hj

section

variable (hok : RoutingOk order k routes r) (hk : 2 ≤ k) (hv : v < serverCount k)
  (hw : w < serverCount k) (hc : c < coreCount k)
include hok hk hv hw hc

theorem RoutingOk.calculated :
    calculateRoute r.order r.topology (serverID k v) (serverID k w) (coreID c) =
      some (route k v w c) := by
  rw [hok.order_eq, hok.topology]
  exact calculateRoute_spec hk order hv hw hc

theorem RoutingOk.passes {d x : Nat} (hpods : v / half k / half k ≠ w / half k / half k)
    (hroute : routes (serverID k w) = some d)
    (hx : x = coreID c ∨ InPod k (v / half k / half k) x ∨ InPod k (w / half k / half k) x) :
    ∃ S, r.subnets x = some S ∧ ¬ (x ∉ r.topology.coreSwitches ∧
      r.declines S (serverID k v) (serverID k w) = true) := by
  rcases hx with hx | hx | hx
  · have hlt : x < coreCount k := hx ▸ hc
    refine ⟨_, hok.core _ hlt, fun h => h.1 ?_⟩
    rw [hok.topology]
    exact mem_coreSwitches.mpr hlt
  · obtain ⟨S, hS, hmemS⟩ := hok.subnet _ _ ((server_lt hk).mp hv) hx
    refine ⟨S, hS, fun h => ?_⟩
    rw [hok.not_declines hv hw hpods hroute hmemS (.inl rfl)] at h
    exact Bool.false_ne_true h.2
  · obtain ⟨S, hS, hmemS⟩ := hok.subnet _ _ ((server_lt hk).mp hw) hx
    refine ⟨S, hS, fun h => ?_⟩
    rw [hok.not_declines hv hw hpods hroute hmemS (.inr rfl)] at h
    exact Bool.false_ne_true h.2

theorem RoutingOk.forwards (hpods : v / half k / half k ≠ w / half k / half k)
    (hroute : routes (serverID k w) = some (coreID c)) {i : Interface Nat}
    (hi : i ∈ interfaces (FatTree.links k) (serverID k v))
    (hj : j ∈ interfaces (FatTree.links k) (serverID k w)) {l₁ l₂ : List Nat} {x y : Nat}
    (hsplit : route k v w c = l₁ ++ x :: y :: l₂) :
    r.decision (FatTree.links k) ⟨i.address, j.address⟩ x = .forward y := by
  have hnodup := route_nodup hk hv hw hc hpods
  have hwired := route_wired hk hv hw hc
  have hend : (route k v w c).getLast? = some (serverID k w) := rfl
  have hmem : x ∈ route k v w c := by
    rw [hsplit]
    exact mem_append_right _ mem_cons_self
  have hnode := mem_route hk hv hw hc hmem
  rw [hsplit] at hnodup hwired hend
  have hlast : x ≠ serverID k w := ne_last_of_split hnodup hend
  have hxy : Wired (FatTree.links k) x y := (isChain_cons_cons.mp (isChain_append.mp hwired).2.1).1
  have hnext : nextAfter x (route k v w c) = some y := by
    rw [hsplit, nextAfter_append (not_mem_of_split hnodup).1]
    rfl
  obtain ⟨out, -, hremote, hout⟩ := outputInterface_spec _ hok.links (node_lt hc hnode) hxy hnext
  -- the packet is not for this node
  have hforeign : (interfaces (FatTree.links k) x).any (fun i => i.address = j.address) = false := by
    rw [any_eq_false]
    intro i' hi' heq
    exact hlast (eq_of_address hi' hj (of_decide_eq_true heq)).1
  have hsource := hok.address hv hi
  have hdestination := hok.address hw hj
  obtain ⟨S, hS, hpass⟩ := hok.passes hk hv hw hc hpods hroute hnode
  have hcalc := hok.calculated hk hv hw hc
  have hcore : r.routes (serverID k w) = some (coreID c) := by rw [hok.routes, hroute]
  have hinput : r.routeInput (FatTree.links k) x ⟨i.address, j.address⟩ =
      some (.unicastForward out) := by
    unfold Routing.routeInput
    simp only [hforeign, Bool.false_eq_true, if_false, hsource, hdestination, hS,
      bind_eq_bind, bind_some, if_neg hpass, hcore, hcalc, hout]
  unfold Routing.decision
  rw [hinput]
  exact congrArg Decision.forward hremote

end

theorem decision_destination {source : Address}
    (hj : j ∈ interfaces (FatTree.links k) (serverID k w)) :
    r.decision (FatTree.links k) ⟨source, j.address⟩ (serverID k w) = .deliver := by
  have hown : ((interfaces (FatTree.links k) (serverID k w)).any
      fun i => i.address = j.address) = true :=
    any_eq_true.mpr ⟨j, hj, decide_eq_true rfl⟩
  unfold Routing.decision Routing.routeInput
  simp only [hown, if_true]

theorem RoutingOk.sends (hok : RoutingOk order k routes r) (hk : 2 ≤ k) (hv : v < serverCount k)
    (hw : w < serverCount k) (hc : c < coreCount k)
    (hpods : v / half k / half k ≠ w / half k / half k)
    (hroute : routes (serverID k w) = some (coreID c))
    (hj : j ∈ interfaces (FatTree.links k) (serverID k w)) :
    ∃ out ∈ interfaces (FatTree.links k) (serverID k v), out.remote = edgeID k (v / half k) ∧
      r.routeOutput (FatTree.links k) (serverID k v) j.address = some (some out) := by
  have hcount : serverID k v < nodeCount k := InPod.lt_nodeCount (.server hv rfl)
  obtain ⟨out, hmem, hremote, hout⟩ :=
    outputInterface_spec (route k v w c) hok.links hcount (wired_server hk hv) (if_pos rfl)
  have hdestination := hok.address hw hj
  obtain ⟨S, hS, hmemS⟩ := hok.subnet _ _ ((server_lt hk).mp hv) (.server hv rfl)
  have hpass := hok.not_declines hv hw hpods hroute hmemS (.inl rfl)
  have hcalc := hok.calculated hk hv hw hc
  have hcore : r.routes (serverID k w) = some (coreID c) := by rw [hok.routes, hroute]
  refine ⟨out, hmem, hremote, ?_⟩
  unfold Routing.routeOutput
  simp only [hdestination, hS, bind_eq_bind, bind_some, hpass, Bool.false_eq_true,
    if_false, hcore, hcalc, hout]

/-- For every `k`, every order of walking the sets and every assignment of core
switches: the relations of the fat tree are mutually inverse, and so are the subnets;
and between hosts of different pods the calculated route has seven nodes, none twice,
wired one after another, and a packet visits just these and is delivered. -/
theorem hedera_forwarding {k : Nat} (hk : 2 ≤ k) (order : HashOrder) (routes : Nat → Option Nat) :
    ∃ r, routing order k routes = some r ∧
    ((∀ c a, Related (topologyHedera k).coreToAggregation c a ↔
        Related (topologyHedera k).aggregationToCore a c) ∧
      (∀ a e, Related (topologyHedera k).aggregationToEdge a e ↔
        Related (topologyHedera k).edgeToAggregation e a) ∧
      (∀ e h, Related (topologyHedera k).edgeToHost e h ↔
        (topologyHedera k).hostToEdge h = some e) ∧
      (∀ h h', (∃ pod ∈ (topologyHedera k).pods, h ∈ pod ∧ h' ∈ pod) ↔
        ∃ e e' a, (topologyHedera k).hostToEdge h = some e ∧
          (topologyHedera k).hostToEdge h' = some e' ∧
          Related (topologyHedera k).edgeToAggregation e a ∧
          Related (topologyHedera k).edgeToAggregation e' a) ∧
      ∀ x y, Related r.subnets x y ↔ Related r.subnets y x) ∧
    ∀ v w c, v < serverCount k → w < serverCount k → c < coreCount k →
      (∀ pod ∈ (topologyHedera k).pods, serverID k v ∈ pod → serverID k w ∉ pod) →
      routes (serverID k w) = some (coreID c) →
      ∃ path, calculateRoute order (topologyHedera k) (serverID k v) (serverID k w) (coreID c) =
          some path ∧
        path.length = 7 ∧ path.Nodup ∧ path.IsChain (Wired (links k)) ∧
        path.head? = some (serverID k v) ∧ path.getLast? = some (serverID k w) ∧
        ∀ j ∈ interfaces (links k) (serverID k w), ∀ ttl, 5 ≤ ttl →
          r.send (links k) ttl (serverID k v) j.address = some path := by
  obtain ⟨r, hr, hok⟩ := exists_routing hk order routes
  refine ⟨r, hr, ?_, fun v w c hv hw hc hpods hroute => ?_⟩
  · obtain ⟨hcore, hedge, hhost, hpod⟩ := maps_inverse hk
    refine ⟨hcore, hedge, hhost, hpod, fun x y => ?_⟩
    rw [hok.related, hok.related]
    exact exists_congr fun p => and_congr_right fun _ => and_comm
  · have hapart : v / half k / half k ≠ w / half k / half k := by
      intro heq
      refine hpods (pod k (v / half k / half k)) (List.mem_map.mpr
        ⟨_, List.mem_range.mpr ((server_lt hk).mp hv), rfl⟩) ((mem_pod hk).mpr ⟨v, rfl, rfl⟩) ?_
      exact (mem_pod hk).mpr ⟨w, heq.symm, rfl⟩
    refine ⟨route k v w c, calculateRoute_spec hk order hv hw hc, rfl,
      route_nodup hk hv hw hc hapart, route_wired hk hv hw hc, rfl, rfl, fun j hj ttl httl => ?_⟩
    obtain ⟨out, hout, hremote, hsend⟩ := hok.sends hk hv hw hc hapart hroute hj
    have hlast : ∀ l x, route k v w c = l ++ [x] →
        r.decision (links k) ⟨out.address, j.address⟩ x = .deliver := by
      intro l x hsplit
      have hend : (route k v w c).getLast? = some (serverID k w) := rfl
      rw [hsplit, List.getLast?_concat] at hend
      obtain rfl := Option.some.inj hend
      exact decision_destination hj
    have hwalk := walk_route (route k v w c)
      (fun l₁ x y l₂ hsplit => hok.forwards hk hv hw hc hapart hroute hout hj hsplit) hlast
      [serverID k v] rfl httl
    unfold Routing.send
    simp only [hsend, hremote, hwalk]
    rfl

/-- Sets walked in the order of their numbers. -/
def sorted : HashOrder := ⟨fun S => S.sort (· ≤ ·), fun _ _ => Finset.mem_sort (· ≤ ·)⟩

/-- From the first to the last server of the fat tree of four ports. -/
theorem hedera_forwarding_four :
    ∃ path, calculateRoute sorted (topologyHedera 4) (serverID 4 0) (serverID 4 15) (coreID 1) =
      some path ∧ path.length = 7 := by
  have hk : 2 ≤ 4 := by decide
  obtain ⟨r, -, -, hroutes⟩ := hedera_forwarding hk sorted fun _ => some 1
  obtain ⟨path, hpath, hlength, -⟩ :=
    hroutes 0 15 1 (by decide) (by decide) (by decide) (by decide +kernel) rfl
  exact ⟨path, hpath, hlength⟩

end

end MoeJit.Hedera
