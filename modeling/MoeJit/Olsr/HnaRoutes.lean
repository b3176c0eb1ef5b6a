import MoeJit.Olsr.TopologySet
import MoeJit.Lib.GuardedRun

/-!
# Routes to external networks

The routes to networks that gateways announce with HNA messages, which `RoutingTableComputation`
makes anew. Its first loop counts up while it removes routes, and stops halfway: half of the routes
of the call before are there when it starts to add.

`hna_routes_right`: the routes are those that the association set asks for as long as each route that
is left over still is the best one, or worse than one that is announced.
`stale_route`: two announcements expire, and one of their routes remains.
-/

namespace MoeJit.Olsr

open List

/-! ## 1. Model -/

abbrev Ipv4Mask := UInt32

structure Association where
  networkAddr : Ipv4Address
  netmask : Ipv4Mask
  deriving DecidableEq

structure AssociationTuple where
  gatewayAddr : Ipv4Address
  networkAddr : Ipv4Address
  netmask : Ipv4Mask
  expirationTime : Time

def AssociationTuple.network (tuple : AssociationTuple) : Association :=
  ⟨tuple.networkAddr, tuple.netmask⟩

/-- An entry of the routing table. -/
structure RoutingTableEntry where
  nextAddr : Ipv4Address
  interface : UInt32
  distance : UInt32

/-- An `Ipv4RoutingTableEntry` of `m_hnaRoutingTable` with its metric. -/
structure HnaRoute where
  dest : Ipv4Address
  destNetworkMask : Ipv4Mask
  gateway : Ipv4Address
  interface : UInt32
  metric : UInt32
  deriving DecidableEq

def HnaRoute.network (route : HnaRoute) : Association := ⟨route.dest, route.destNetworkMask⟩

def removeRoute (index : Nat) (routes : List HnaRoute) : List HnaRoute := routes.eraseIdx index

def addNetworkRouteTo (route : HnaRoute) (routes : List HnaRoute) : List HnaRoute :=
  if route ∈ routes then routes else routes ++ [route]

/-- Clear HNA routing table. -/
def clearRoutes (i : Nat) (routes : List HnaRoute) : List HnaRoute :=
  if i < routes.length then clearRoutes (i + 1) (removeRoute 0 routes) else routes
termination_by routes.length - i
decreasing_by
  rw [removeRoute, List.length_eraseIdx]
  split <;> omega

structure HnaNode where
  now : Time := 0
  linkSet : List LinkTuple := []
  associationSet : List AssociationTuple := []
  /-- What the node announces itself. -/
  associations : List Association := []
  table : Ipv4Address → Option RoutingTableEntry := fun _ => none
  hnaRoutingTable : List HnaRoute := []

def routeOf (tuple : AssociationTuple) (entry : RoutingTableEntry) : HnaRoute :=
  ⟨tuple.networkAddr, tuple.netmask, entry.nextAddr, entry.interface, entry.distance⟩

/-- The second loop, for one association tuple. -/
def addTuple (associations : List Association) (table : Ipv4Address → Option RoutingTableEntry)
    (routes : List HnaRoute) (tuple : AssociationTuple) : List HnaRoute :=
  if tuple.network ∈ associations then routes
  else
    match table tuple.gatewayAddr with
    | none => routes
    | some gatewayEntry =>
      match routes.findIdx? fun route => route.network = tuple.network with
      | none => addNetworkRouteTo (routeOf tuple gatewayEntry) routes
      | some routeIndex =>
        if (routes[routeIndex]?.map HnaRoute.metric).any (gatewayEntry.distance < ·) then
          addNetworkRouteTo (routeOf tuple gatewayEntry) (removeRoute routeIndex routes)
        else routes

/-- `RoutingTableComputation` from its fifth step on. -/
def computeHnaRoutes (node : HnaNode) : HnaNode :=
  { node with
    hnaRoutingTable := node.associationSet.foldl (addTuple node.associations node.table)
      (clearRoutes 0 node.hnaRoutingTable) }

def AssociationTuple.Is (gatewayAddr : Ipv4Address) (network : Association)
    (tuple : AssociationTuple) : Prop :=
  tuple.gatewayAddr = gatewayAddr ∧ tuple.network = network

instance (gatewayAddr : Ipv4Address) (network : Association) :
    DecidablePred (AssociationTuple.Is gatewayAddr network) :=
  fun tuple => inferInstanceAs (Decidable (tuple.gatewayAddr = gatewayAddr ∧ _))

/-- `ProcessHna`, for one pair of the message. -/
def processPair (gatewayAddr : Ipv4Address) (expirationTime : Time)
    (associationSet : List AssociationTuple) (network : Association) : List AssociationTuple :=
  match associationSet.findIdx? fun tuple => tuple.Is gatewayAddr network with
  | some i => associationSet.modify i ({ · with expirationTime })
  | none => associationSet ++ [⟨gatewayAddr, network.networkAddr, network.netmask, expirationTime⟩]

def processHna (originatorAddress : Ipv4Address) (vTime : Time) (associations : List Association)
    (senderIface : Ipv4Address) (node : HnaNode) : HnaNode :=
  if (findSymLinkTuple senderIface node.now node.linkSet).isNone then node
  else
    { node with
      associationSet := associations.foldl (processPair originatorAddress (node.now + vTime))
        node.associationSet }

def associationTupleTimerExpire (gatewayAddr : Ipv4Address) (network : Association)
    (node : HnaNode) : HnaNode :=
  match node.associationSet.find? fun tuple => tuple.Is gatewayAddr network with
  | none => node
  | some tuple =>
    if tuple.expirationTime < node.now then
      { node with
        associationSet := node.associationSet.eraseP fun tuple => tuple.Is gatewayAddr network }
    else node

/-! ## 2. Runs -/

/-- A timer may fire at any time, and time may take any value. -/
inductive HnaEvent
  | hna (originatorAddress : Ipv4Address) (vTime : Time) (associations : List Association)
    (senderIface : Ipv4Address)
  | timer (gatewayAddr : Ipv4Address) (network : Association)
  | pass (now : Time)
  | links (linkSet : List LinkTuple)
  | announce (associations : List Association)
  | routes (table : Ipv4Address → Option RoutingTableEntry)
  | compute

/-- `fresh` is a record of whether the last event was a computation. -/
structure HnaWorld where
  node : HnaNode
  fresh : Bool := false

def hnaStep (w : HnaWorld) : HnaEvent → HnaWorld
  | .hna originatorAddress vTime associations senderIface =>
    ⟨processHna originatorAddress vTime associations senderIface w.node, false⟩
  | .timer gatewayAddr network => ⟨associationTupleTimerExpire gatewayAddr network w.node, false⟩
  | .pass now => ⟨{ w.node with now }, false⟩
  | .links linkSet => ⟨{ w.node with linkSet }, false⟩
  | .announce associations => ⟨{ w.node with associations }, false⟩
  | .routes table => ⟨{ w.node with table }, false⟩
  | .compute => ⟨computeHnaRoutes w.node, true⟩

/-! ## 3. Statement -/

namespace HnaNode

variable (node : HnaNode)

/-- A gateway in the routing table announces a network that the node does not announce itself. -/
structure Usable (tuple : AssociationTuple) (entry : RoutingTableEntry) : Prop where
  foreign : tuple.network ∉ node.associations
  present : node.table tuple.gatewayAddr = some entry

/-- No gateway of its network is nearer. -/
def Least (tuples : List AssociationTuple) (route : HnaRoute) : Prop :=
  ∀ tuple ∈ tuples, ∀ entry, node.Usable tuple entry → tuple.network = route.network →
    route.metric ≤ entry.distance

/-- The route goes through a gateway of its network. -/
def Through (tuples : List AssociationTuple) (route : HnaRoute) : Prop :=
  ∃ tuple ∈ tuples, ∃ entry, node.Usable tuple entry ∧ route = routeOf tuple entry

def Best (route : HnaRoute) : Prop :=
  node.Through node.associationSet route ∧ node.Least node.associationSet route

/-- There is a route to each network that a tuple asks for, exactly one, and no other. -/
structure HnaRight : Prop where
  nodup : (node.hnaRoutingTable.map HnaRoute.network).Nodup
  covers : ∀ tuple ∈ node.associationSet, ∀ entry, node.Usable tuple entry →
    ∃ route ∈ node.hnaRoutingTable, route.network = tuple.network
  best : ∀ route ∈ node.hnaRoutingTable, node.Best route

/-- What the first loop leaves. -/
def leftOver : List HnaRoute :=
  node.hnaRoutingTable.drop ((node.hnaRoutingTable.length + 1) / 2)

/-- What is left over does no harm. -/
structure LeftOverOk : Prop where
  nodup : (node.leftOver.map HnaRoute.network).Nodup
  ok : ∀ route ∈ node.leftOver, node.Least node.associationSet route → node.Best route

end HnaNode

/-! ## 4. The two loops -/

theorem clearRoutes_eq (i : Nat) (routes : List HnaRoute) :
    clearRoutes i routes = routes.drop ((routes.length - i + 1) / 2) := by
  induction i, routes using clearRoutes.induct with
  | case1 i routes hlt ih =>
    rw [clearRoutes, if_pos hlt, ih]
    obtain _ | ⟨route, routes⟩ := routes
    · exact absurd hlt (Nat.not_lt_zero i)
    · have hlen : (routes.length + 1 - i + 1) / 2 = (routes.length - (i + 1) + 1) / 2 + 1 := by
        rw [length_cons] at hlt
        omega
      rw [length_cons, hlen]
      rfl
  | case2 i routes hge =>
    rw [clearRoutes, if_neg hge, Nat.sub_eq_zero_of_le (not_lt.mp hge)]
    rfl

section Rebuild

variable {node : HnaNode} {kept : List HnaRoute} {tuples : List AssociationTuple}
  {routes : List HnaRoute} {tuple : AssociationTuple} {entry : RoutingTableEntry}

variable (node kept tuples routes) in
/-- The second loop has come this far. -/
structure Rebuilt : Prop where
  nodup : (routes.map HnaRoute.network).Nodup
  covers : ∀ tuple ∈ tuples, ∀ entry, node.Usable tuple entry →
    ∃ route ∈ routes, route.network = tuple.network
  origin : ∀ route ∈ routes, route ∈ kept ∨ node.Through tuples route
  least : ∀ route ∈ routes, node.Least tuples route

theorem Rebuilt.skip (h : Rebuilt node kept tuples routes)
    (hskip : ∀ entry, node.Usable tuple entry →
      ∃ route ∈ routes, route.network = tuple.network ∧ route.metric ≤ entry.distance) :
    Rebuilt node kept (tuple :: tuples) routes where
  nodup := h.nodup
  covers := by
    refine forall_mem_cons.mpr ⟨fun entry hentry => ?_, h.covers⟩
    obtain ⟨route, hroute, hnetwork, -⟩ := hskip entry hentry
    exact ⟨route, hroute, hnetwork⟩
  origin route hroute := (h.origin route hroute).imp_right fun ⟨tuple, htuple, hthrough⟩ =>
    ⟨tuple, mem_cons_of_mem _ htuple, hthrough⟩
  least route hroute := by
    refine forall_mem_cons.mpr ⟨fun entry hentry hnetwork => ?_, h.least route hroute⟩
    obtain ⟨other, hother, hnetwork', hle⟩ := hskip entry hentry
    exact inj_on_of_nodup_map h.nodup hother hroute (hnetwork'.trans hnetwork) ▸ hle

/-- The route of a tuple takes the place of the one to its network, if there was one. -/
theorem Rebuilt.replace (h : Rebuilt node kept tuples routes) (hentry : node.Usable tuple entry)
    {others : List HnaRoute} (hsub : others.Sublist routes)
    (hothers : ∀ route, route ∈ others ↔ route ∈ routes ∧ route.network ≠ tuple.network)
    (hworse : ∀ route ∈ routes, route.network = tuple.network → entry.distance ≤ route.metric) :
    Rebuilt node kept (tuple :: tuples) (addNetworkRouteTo (routeOf tuple entry) others) := by
  have hnew : routeOf tuple entry ∉ others := fun hmem => ((hothers _).mp hmem).2 rfl
  rw [addNetworkRouteTo, if_neg hnew]
  have hmem {route : HnaRoute} : route ∈ others ++ [routeOf tuple entry] ↔
      (route ∈ routes ∧ route.network ≠ tuple.network) ∨ route = routeOf tuple entry := by
    rw [mem_append, hothers, mem_singleton]
  refine ⟨?_, ?_, fun route hroute => ?_, fun route hroute => ?_⟩
  · rw [map_append, nodup_append]
    refine ⟨h.nodup.sublist (hsub.map _), nodup_singleton _, ?_⟩
    rintro network hnetwork _ (_ | ⟨_, ⟨⟩⟩) rfl
    obtain ⟨route, hroute, hsame⟩ := mem_map.mp hnetwork
    exact ((hothers route).mp hroute).2 hsame
  · refine forall_mem_cons.mpr ⟨fun _ _ => ⟨_, hmem.mpr (.inr rfl), rfl⟩, ?_⟩
    intro other hother entry' hentry'
    by_cases hnetwork : other.network = tuple.network
    · exact ⟨_, hmem.mpr (.inr rfl), hnetwork.symm⟩
    · obtain ⟨route, hroute, hsame⟩ := h.covers other hother entry' hentry'
      exact ⟨route, hmem.mpr (.inl ⟨hroute, hsame ▸ hnetwork⟩), hsame⟩
  · obtain ⟨hold, -⟩ | rfl := hmem.mp hroute
    · exact (h.origin route hold).imp_right fun ⟨tuple, htuple, hthrough⟩ =>
        ⟨tuple, mem_cons_of_mem _ htuple, hthrough⟩
    · exact .inr ⟨tuple, mem_cons_self, entry, hentry, rfl⟩
  · obtain ⟨hold, hne⟩ | rfl := hmem.mp hroute
    · exact forall_mem_cons.mpr ⟨fun _ _ hnetwork => absurd hnetwork.symm hne, h.least route hold⟩
    · refine forall_mem_cons.mpr ⟨fun entry' hentry' _ => ?_, ?_⟩
      · exact Option.some.inj (hentry.present.symm.trans hentry'.present) ▸ UInt32.le_refl _
      · intro other hother entry' hentry' hnetwork
        obtain ⟨route, hroute, hsame⟩ := h.covers other hother entry' hentry'
        exact UInt32.le_trans (hworse route hroute (hsame.trans hnetwork))
          (h.least route hroute other hother entry' hentry' hsame.symm)

theorem mem_eraseIdx_network (hnodup : (routes.map HnaRoute.network).Nodup) {i : Nat}
    (hi : i < routes.length) (route : HnaRoute) :
    route ∈ routes.eraseIdx i ↔ route ∈ routes ∧ route.network ≠ routes[i].network := by
  rw [mem_eraseIdx_iff_getElem]
  constructor
  · rintro ⟨j, hj, hne, rfl⟩
    refine ⟨getElem_mem hj, fun hsame => hne ?_⟩
    have hlen : (routes.map HnaRoute.network).length = routes.length := length_map _
    refine (@Nodup.getElem_inj_iff _ _ hnodup j (hlen ▸ hj) i (hlen ▸ hi)).mp ?_
    rw [getElem_map, getElem_map, hsame]
  · rintro ⟨hmem, hne⟩
    obtain ⟨j, hj, rfl⟩ := getElem_of_mem hmem
    exact ⟨j, hj, fun hsame => hne (by subst hsame; rfl), rfl⟩

theorem Rebuilt.addTuple (h : Rebuilt node kept tuples routes) (tuple : AssociationTuple) :
    Rebuilt node kept (tuple :: tuples) (addTuple node.associations node.table routes tuple) := by
  unfold Olsr.addTuple
  split
  · next hlocal => exact h.skip fun _ hentry => absurd hlocal hentry.foreign
  next hforeign =>
  split
  · next hnone => exact h.skip fun _ hentry => by cases hnone.symm.trans hentry.present
  next gatewayEntry hsome =>
  have hentry : node.Usable tuple gatewayEntry := ⟨hforeign, hsome⟩
  split
  · next hnone =>
    have hnew (route : HnaRoute) (hroute : route ∈ routes) : route.network ≠ tuple.network := by
      simpa using findIdx?_eq_none_iff.mp hnone route hroute
    refine h.replace hentry (List.Sublist.refl routes) (fun route => ?_) fun route hroute hsame =>
      absurd hsame (hnew route hroute)
    exact ⟨fun hroute => ⟨hroute, hnew route hroute⟩, And.left⟩
  · next routeIndex hfound =>
    obtain ⟨hlt, hsame, -⟩ := findIdx?_eq_some_iff_getElem.mp hfound
    have hsame := of_decide_eq_true hsame
    rw [getElem?_eq_getElem hlt, Option.map_some, Option.any_some]
    split
    · next hnearer =>
      refine h.replace hentry (eraseIdx_sublist routes routeIndex) (fun route => ?_)
        fun route hroute hnetwork => ?_
      · rw [← hsame]
        exact mem_eraseIdx_network h.nodup hlt route
      · rw [inj_on_of_nodup_map h.nodup hroute (getElem_mem hlt) (hnetwork.trans hsame.symm)]
        exact UInt32.le_of_lt (of_decide_eq_true hnearer)
    · next hnot =>
      refine h.skip fun entry hentry' => ⟨_, getElem_mem hlt, hsame, ?_⟩
      rw [← Option.some.inj (hsome.symm.trans hentry'.present)]
      exact UInt32.not_lt.mp (of_decide_eq_false (eq_false_of_ne_true hnot))

theorem Rebuilt.foldl_addTuple (h : Rebuilt node kept tuples routes)
    (rest : List AssociationTuple) : Rebuilt node kept (rest.reverse ++ tuples)
      (rest.foldl (Olsr.addTuple node.associations node.table) routes) := by
  induction rest generalizing tuples routes with
  | nil => exact h
  | cons tuple rest ih =>
    rw [reverse_cons, append_assoc]
    exact ih (h.addTuple tuple)

end Rebuild

/-! ## 5. What a run leaves -/

theorem HnaNode.LeftOverOk.hnaRight {node : HnaNode} (h : node.LeftOverOk) :
    (computeHnaRoutes node).HnaRight := by
  have hstart : Rebuilt node node.leftOver [] (clearRoutes 0 node.hnaRoutingTable) := by
    rw [clearRoutes_eq, Nat.sub_zero]
    exact ⟨h.nodup, forall_mem_nil _, fun _ => .inl, fun _ _ => forall_mem_nil _⟩
  have hend := hstart.foldl_addTuple node.associationSet
  rw [append_nil] at hend
  have hleast (route : HnaRoute) (hroute : route ∈ (computeHnaRoutes node).hnaRoutingTable) :
      node.Least node.associationSet route := fun tuple htuple =>
    hend.least route hroute tuple (mem_reverse.mpr htuple)
  refine ⟨hend.nodup, fun tuple htuple entry hentry => ?_, fun route hroute => ?_⟩
  · exact hend.covers tuple (mem_reverse.mpr htuple) entry ⟨hentry.foreign, hentry.present⟩
  · have hbest : node.Best route := by
      obtain hkept | ⟨tuple, htuple, entry, hentry, hsame⟩ := hend.origin route hroute
      · exact h.ok route hkept (hleast route hroute)
      · exact ⟨⟨tuple, mem_reverse.mp htuple, entry, hentry, hsame⟩, hleast route hroute⟩
    obtain ⟨⟨tuple, htuple, entry, hentry, hsame⟩, hnear⟩ := hbest
    refine ⟨⟨tuple, htuple, entry, ⟨hentry.foreign, hentry.present⟩, hsame⟩, ?_⟩
    exact fun other hother entry' hentry' =>
      hnear other hother entry' ⟨hentry'.foreign, hentry'.present⟩

theorem HnaNode.leftOverOk_of_length_le {node : HnaNode}
    (h : node.hnaRoutingTable.length ≤ 1) : node.LeftOverOk := by
  have hnil : node.leftOver = [] := drop_eq_nil_of_le (by omega)
  constructor
  · rw [hnil]
    exact nodup_nil
  · rw [hnil]
    exact forall_mem_nil _

/-- Each computation finds, past the first half of the routes, none that does harm. -/
def KeepsNoHarm (w : HnaWorld) (event : HnaEvent) : Prop :=
  event = .compute → w.node.LeftOverOk

/-- After each computation the routes are right, whatever was in the table at first. -/
theorem hna_routes_right (node : HnaNode) (events : List HnaEvent)
    (h : Guarded hnaStep KeepsNoHarm ⟨node, false⟩ events) :
    (events.foldl hnaStep ⟨node, false⟩).fresh →
      (events.foldl hnaStep ⟨node, false⟩).node.HnaRight := by
  refine h.inv_foldl (fun w event (_ : w.fresh → w.node.HnaRight) hguard => ?_)
    fun hfresh => absurd hfresh Bool.false_ne_true
  cases event with
  | compute => exact fun _ => (hguard rfl).hnaRight
  | _ => exact fun hfresh => absurd hfresh Bool.false_ne_true

/-- Announcements of a neighbor are received, and used, and expire. -/
def announcedAndExpired (networks : List Association) : List HnaEvent :=
  [.links [⟨0x0a000002, 9⟩], .hna 0x0a000002 6 networks 0x0a000002,
    .routes fun dest => if dest = 0x0a000002 then some ⟨0x0a000002, 1, 1⟩ else none, .compute,
    .pass 7, .timer 0x0a000002 ⟨0x0a010000, 0xffff0000⟩,
    .timer 0x0a000002 ⟨0x0a020000, 0xffff0000⟩, .compute]

/-- One network. -/
theorem hna_routes_right_one :
    let events := announcedAndExpired [⟨0x0a010000, 0xffff0000⟩]
    (events.foldl hnaStep ⟨{}, false⟩).fresh →
      (events.foldl hnaStep ⟨{}, false⟩).node.HnaRight := by
  refine hna_routes_right {} (announcedAndExpired [⟨0x0a010000, 0xffff0000⟩]) ?_
  refine ⟨nofun, nofun, nofun, fun _ => ?_, nofun, nofun, nofun, fun _ => ?_, trivial⟩
  · exact HnaNode.leftOverOk_of_length_le (Nat.zero_le 1)
  · exact HnaNode.leftOverOk_of_length_le (by decide +kernel)

/-- Two networks. -/
def twoNetworks : List HnaEvent :=
  announcedAndExpired [⟨0x0a010000, 0xffff0000⟩, ⟨0x0a020000, 0xffff0000⟩]

/-- The second route is there although nobody announces its network. -/
theorem stale_route :
    ((twoNetworks.foldl hnaStep ⟨{}, false⟩).node.associationSet.length = 0 ∧
      (twoNetworks.foldl hnaStep ⟨{}, false⟩).node.hnaRoutingTable =
        [⟨0x0a020000, 0xffff0000, 0x0a000002, 1, 1⟩]) ∧
    ¬((twoNetworks.foldl hnaStep ⟨{}, false⟩).fresh →
      (twoNetworks.foldl hnaStep ⟨{}, false⟩).node.HnaRight) := by
  have hset : (twoNetworks.foldl hnaStep ⟨{}, false⟩).node.associationSet.length = 0 := by
    rfl
  have htable : (twoNetworks.foldl hnaStep ⟨{}, false⟩).node.hnaRoutingTable =
      [⟨0x0a020000, 0xffff0000, 0x0a000002, 1, 1⟩] := by
    decide +kernel
  refine ⟨⟨hset, htable⟩, fun h => ?_⟩
  obtain ⟨⟨tuple, htuple, -⟩, -⟩ := (h rfl).best _ (htable ▸ List.mem_singleton_self _)
  rw [List.eq_nil_of_length_eq_zero hset] at htuple
  cases htuple

end MoeJit.Olsr
