import MoeJit.NixVectorRouting.Paths

/-!
# Packets follow the path of their source

Packets are routed by nix-vectors and routes that were cached for other packets. These agree with
the path that the source of a packet finds, since the search takes the same way from a node on
wherever it started. This needs the search to find the same path with the requested device, if there
is one. And a packet stops where a multiple of 32 bits remains (`Network.Fits`).
-/

namespace MoeJit.NixVectorRouting.Network

open List
open Function (update update_of_ne update_self)

open PacketSerialization (NixVector)
open BreadthFirst (Way)

variable (net : Network)

/-! ## 1. What is cached -/

/-- A nix-vector for a path can be read at all its nodes, and no node before the last takes the
address for its own. -/
structure Carries (address : Ipv4Address) (dest : net.Node) (l : List net.Node) : Prop where
  shift : ∀ r ∈ l.tails, net.hops r ≠ [] → bits (net.hops r) % 32 ≠ 0
  size : bits (net.hops l) < 2 ^ 32
  others : ∀ node ∈ l, node ≠ dest → net.isDestinationAddress node address = false

/-- The search finds the same path with the requested device as without, and it can carry a
packet. -/
def Fits : Event net.numberOfNodes → Prop
  | .send node address oif => ∀ dest, net.getNodeByIp address = some dest →
    net.bfsPath node dest oif = net.bfsPath node dest none ∧
      ∀ l, net.bfsPath node dest none = some l → net.Carries address dest l
  | _ => True

/-- A route leads to a node. -/
def Leads (node : net.Node) (rtentry : Ipv4Route) (next : net.Node) : Prop :=
  ∃ i, peerOf net.devices node rtentry.outputDevice = some (next, i)

/-- What a node has cached agrees with the ways from it. -/
structure Consistent (node : net.Node) (st : NodeState) : Prop where
  nix : ∀ address nixVector, st.nixCache address = some nixVector → ∃ dest l,
    net.getNodeByIp address = some dest ∧ node ≠ dest ∧ Way net.neighbors dest node l ∧
      Built nixVector (net.hops l)
  route : ∀ address rtentry, st.ipRouteCache address = some rtentry → ∃ dest next rest,
    net.getNodeByIp address = some dest ∧ Way net.neighbors dest node (node :: next :: rest) ∧
      net.Leads node rtentry next
  total : st.totalNeighbors = 0 ∨ st.totalNeighbors = net.findTotalNeighbors node

variable {net} {node dest next : net.Node} {address : Ipv4Address} {l rest : List net.Node}
  {oif : Option Nat} {st : NodeState}

theorem bfsPath_none_eq_some : net.bfsPath node dest none = some l ↔
    Way net.neighbors dest node l := bfsPath_eq_some

theorem consistent_initial (node : net.Node) : net.Consistent node {} where
  nix := fun _ _ h => by cases h
  route := fun _ _ h => by cases h
  total := .inl rfl

theorem Consistent.countNeighbors (h : net.Consistent node st) : net.countNeighbors node st =
    { st with totalNeighbors := net.findTotalNeighbors node } := by
  rw [Network.countNeighbors]
  split
  · rfl
  · next hne => rw [← h.total.resolve_left hne]

theorem Consistent.counted (h : net.Consistent node st) :
    net.Consistent node { st with totalNeighbors := net.findTotalNeighbors node } :=
  ⟨h.nix, h.route, .inr rfl⟩

variable {rtentry : Ipv4Route} {nixVector : NixVector} {i : Nat}

theorem Consistent.cacheRoute (h : net.Consistent node st)
    (haddress : net.getNodeByIp address = some dest)
    (hway : Way net.neighbors dest node (node :: next :: rest))
    (hleads : net.Leads node rtentry next) : net.Consistent node { st with
      ipRouteCache := update st.ipRouteCache address (some rtentry) } where
  nix := h.nix
  total := h.total
  route := fun address' rtentry' hcached => by
    simp only at hcached
    by_cases heq : address' = address
    · subst heq
      rw [update_self] at hcached
      obtain rfl := Option.some.inj hcached
      exact ⟨dest, next, rest, haddress, hway, hleads⟩
    · rw [update_of_ne heq] at hcached
      exact h.route address' rtentry' hcached

theorem Consistent.leads (h : net.Consistent node st)
    (hcached : st.ipRouteCache address = some rtentry)
    (haddress : net.getNodeByIp address = some dest)
    (hway : Way net.neighbors dest node (node :: next :: rest)) : net.Leads node rtentry next := by
  obtain ⟨dest', next', rest', haddr', hway', hleads⟩ := h.route address rtentry hcached
  obtain rfl : dest' = dest := Option.some.inj (haddr'.symm.trans haddress)
  obtain rfl : next' = next := (List.cons.inj (List.cons.inj (hway'.unique hway)).2).1
  exact hleads

/-! ## 2. One node -/

theorem extractNeighborIndex_hop (hremain : Remain nixVector (net.hops (node :: next :: rest)))
    (hshift : bits (net.hops (node :: next :: rest)) % 32 ≠ 0) : ∃ nixVector',
      extractNeighborIndex (bitCount (net.findTotalNeighbors node)) nixVector =
          .ok ((net.hop node next).1, nixVector') ∧
        Remain nixVector' (net.hops (next :: rest)) :=
  ⟨_, extractNeighborIndex_of_remain hremain (hop_lt node next) (hops_pos node next)
    (hop_le node next) hshift⟩

theorem leads_of_hop (gateway : Ipv4Address) (h : next ∈ net.neighbors node) : net.Leads node
      ⟨gateway, (net.findNetDeviceForNixIndex node (net.hop node next).1.toNat).1⟩ next :=
  hop_leads h

/-- So does the requested device, if the search found the way through it. -/
theorem leads_of_oif (gateway : Ipv4Address)
    (h : net.bfsPath node dest (some i) = some (node :: next :: rest)) (hne : node ≠ dest) :
    net.Leads node ⟨gateway, i⟩ next := by
  obtain ⟨next', rest', heq, hnext, -⟩ := (bfsPath_eq_some.mp h).next hne
  obtain ⟨rfl, -⟩ := List.cons.inj (List.cons.inj heq).2
  rw [usedNeighbors, usedDevices, if_pos rfl] at hnext
  obtain ⟨remote, hremote, rfl⟩ := mem_map.mp hnext
  obtain ⟨device, hdevice, hmem⟩ := mem_flatMap.mp hremote
  exact ⟨remote.2, peerOf_of_mem (Option.mem_toList.mp hdevice) hmem⟩

section

variable (h : net.Consistent node st) (haddress : net.getNodeByIp address = some dest)
include h haddress

theorem routeInput_spec (hway : Way net.neighbors dest node (node :: next :: rest))
    (hnext : next ∈ net.neighbors node)
    (hremain : Remain nixVector (net.hops (node :: next :: rest)))
    (hshift : bits (net.hops (node :: next :: rest)) % 32 ≠ 0) : ∃ st' rtentry nixVector',
      net.routeInput node address nixVector st = .ok (st', rtentry, nixVector') ∧
        net.Consistent node st' ∧ net.Leads node rtentry next ∧
        Remain nixVector' (net.hops (next :: rest)) := by
  obtain ⟨nixVector', hextract, hremain'⟩ := extractNeighborIndex_hop hremain hshift
  rw [routeInput, h.countNeighbors]
  simp only [hextract, except_ok_bind]
  cases hroute : st.ipRouteCache address with
  | some rtentry =>
    exact ⟨_, rtentry, nixVector', rfl, h.counted, h.leads hroute haddress hway, hremain'⟩
  | none =>
    have hleads := leads_of_hop
      (net.findNetDeviceForNixIndex node (net.hop node next).1.toNat).2 hnext
    exact ⟨_, _, nixVector', rfl, h.counted.cacheRoute haddress hway hleads, hleads, hremain'⟩

theorem lookupNixVector_spec (hne : node ≠ dest) (hpath : net.bfsPath node dest oif = some l)
    (hway : Way net.neighbors dest node l) (hbits : bits (net.hops l) < 2 ^ 32) : ∃ st' nixVector,
      net.lookupNixVector node address oif st = .ok (st', some nixVector) ∧
        net.Consistent node st' ∧ Built nixVector (net.hops l) := by
  rw [lookupNixVector]
  cases hcached : st.nixCache address with
  | some nixVector =>
    obtain ⟨dest', l', haddr', -, hway', hbuilt⟩ := h.nix address nixVector hcached
    obtain rfl : dest' = dest := Option.some.inj (haddr'.symm.trans haddress)
    obtain rfl : l' = l := hway'.unique hway
    exact ⟨st, nixVector, rfl, h, hbuilt⟩
  | none =>
    obtain ⟨nixVector, hget, hbuilt⟩ := getNixVector_of_bfsPath haddress hne hpath hbits
    simp only [hget, except_ok_bind]
    refine ⟨_, nixVector, rfl, ⟨fun address' nixVector' hcached' => ?_, h.route, h.total⟩, hbuilt⟩
    simp only at hcached'
    by_cases heq : address' = address
    · subst heq
      rw [update_self] at hcached'
      obtain rfl := Option.some.inj hcached'
      exact ⟨dest, l, haddress, hne, hway, hbuilt⟩
    · rw [update_of_ne heq] at hcached'
      exact h.nix address' nixVector' hcached'

theorem routeOutput_spec (hne : node ≠ dest)
    (hpath : net.bfsPath node dest oif = some (node :: next :: rest))
    (hway : Way net.neighbors dest node (node :: next :: rest)) (hnext : next ∈ net.neighbors node)
    (hcarries : net.Carries address dest (node :: next :: rest)) : ∃ st' rtentry nixVector,
      net.routeOutput node address oif st = .ok (st', some (rtentry, nixVector)) ∧
        net.Consistent node st' ∧ net.Leads node rtentry next ∧
        Remain nixVector (net.hops (next :: rest)) := by
  obtain ⟨st₁, nixVector, hlookup, hst₁, hbuilt⟩ :=
    lookupNixVector_spec h haddress hne hpath hway hcarries.size
  have hshift := hcarries.shift _ ((mem_tails _ _).mpr (suffix_refl _))
    (cons_ne_nil _ (net.hops (next :: rest)))
  obtain ⟨nixVector', hextract, hremain⟩ := extractNeighborIndex_hop hbuilt.remain hshift
  have hbuiltleads : net.Leads node
      ⟨(net.findNetDeviceForNixIndex node (net.hop node next).1.toNat).2,
        oif.getD (net.findNetDeviceForNixIndex node (net.hop node next).1.toNat).1⟩ next := by
    cases oif with
    | none => exact leads_of_hop _ hnext
    | some i => exact leads_of_oif _ hpath hne
  rw [routeOutput]
  simp only [hlookup, except_ok_bind, hst₁.countNeighbors, hextract]
  cases hroute : st₁.ipRouteCache address with
  | none =>
    exact ⟨_, _, nixVector', rfl, hst₁.counted.cacheRoute haddress hway hbuiltleads, hbuiltleads,
      hremain⟩
  | some rtentry =>
    have hleads : net.Leads node (if some rtentry.outputDevice = oif then rtentry else
        ⟨(net.findNetDeviceForNixIndex node (net.hop node next).1.toNat).2,
          oif.getD (net.findNetDeviceForNixIndex node (net.hop node next).1.toNat).1⟩) next := by
      split
      · exact hst₁.leads hroute haddress hway
      · exact hbuiltleads
    exact ⟨_, _, nixVector', rfl, hst₁.counted.cacheRoute haddress hway hleads, hleads, hremain⟩

end

theorem routeOutput_none (h : net.Consistent node st)
    (hpath : ∀ dest, net.getNodeByIp address = some dest →
      node = dest ∨ (net.bfsPath node dest none = none ∧ net.bfsPath node dest oif = none)) :
    net.routeOutput node address oif st = .ok (st, none) := by
  have hcached : st.nixCache address = none := by
    cases hcached : st.nixCache address with
    | none => rfl
    | some nixVector =>
      obtain ⟨dest, l, haddress, hne, hway, -⟩ := h.nix address nixVector hcached
      have hnone := ((hpath dest haddress).resolve_left hne).1
      rw [bfsPath_none_eq_some.mpr hway] at hnone
      cases hnone
  have hget : net.getNixVector node address oif = .ok none := by
    cases haddress : net.getNodeByIp address with
    | none => rw [getNixVector, haddress]
    | some dest =>
      rcases hpath dest haddress with heq | ⟨-, hnone⟩
      · rw [getNixVector, haddress]
        exact if_pos heq
      · exact getNixVector_of_bfsPath_none haddress hnone
  rw [routeOutput, lookupNixVector, hcached]
  simp only [hget, except_ok_bind]

/-! ## 3. Packets -/

/-- A packet is on the path that its source finds, and holds the indices for the rest. -/
structure OnPath (net : Network) (p : Packet net.numberOfNodes) (dest : net.Node)
    (rest : List net.Node) : Prop where
  address : net.getNodeByIp p.destination = some dest
  way : Way net.neighbors dest p.node (p.node :: rest)
  path : net.bfsPath p.source dest none = some (p.visited ++ p.node :: rest)
  carries : net.Carries p.destination dest (p.visited ++ p.node :: rest)
  remain : Remain p.nixVector (net.hops (p.node :: rest))

/-- A packet came to the destination along the path, and has no bits left. -/
structure Delivered (net : Network) (p : Packet net.numberOfNodes) : Prop where
  address : net.getNodeByIp p.destination = some p.node
  path : net.bfsPath p.source p.node none = some p.visited
  consumed : (getRemainingBits p.nixVector).toNat = 0

structure Inv (net : Network) (w : World net.numberOfNodes) : Prop where
  nodes : ∀ node, net.Consistent node (w.nodes node)
  inFlight : ∀ p ∈ w.inFlight, ∃ dest rest, net.OnPath p dest rest
  delivered : ∀ p ∈ w.delivered, net.Delivered p

variable {p : Packet net.numberOfNodes} {w : World net.numberOfNodes}

theorem inv_initial : net.Inv {} where
  nodes := consistent_initial
  inFlight := forall_mem_nil _
  delivered := forall_mem_nil _

theorem isDestinationAddress_of_getNodeByIp (h : net.getNodeByIp address = some node) :
    net.isDestinationAddress node address = true := by
  have hmem : address ∈ addressesOf net.devices node := by
    rw [getNodeByIp] at h
    have hfound := find?_some h
    exact of_decide_eq_true hfound
  obtain ⟨device, hdevice, haddress⟩ := mem_flatMap.mp hmem
  obtain ⟨a, ha, rfl⟩ := mem_map.mp haddress
  have hin : a ∈ device.addresses := by
    rw [NetDevice.interfaceAddresses] at ha
    split at ha
    · cases ha
    · exact ha
  rw [isDestinationAddress, Bool.or_eq_true]
  refine .inr (any_eq_true.mpr ⟨device, hdevice, any_eq_true.mpr ⟨a, hin, ?_⟩⟩)
  rw [decide_eq_true rfl, Bool.true_or]

theorem Consistent.update {node' : net.Node} (h : ∀ node, net.Consistent node (w.nodes node))
    (hst : net.Consistent node' st) (node : net.Node) :
    net.Consistent node (update w.nodes node' st node) := by
  by_cases heq : node = node'
  · subst heq
    rwa [update_self]
  · rw [update_of_ne heq]
    exact h node

theorem OnPath.eq_dest (h : net.OnPath p dest []) : p.node = dest := Option.some.inj h.way.getLast?

section

variable (h : net.OnPath p dest (next :: rest))
include h

theorem OnPath.ne_dest : p.node ≠ dest := by
  intro heq
  have hway := h.way
  rw [heq] at hway
  exact absurd (List.cons.inj (hway.unique (Way.refl _ dest))).2 (cons_ne_nil next rest)

theorem OnPath.shift : bits (net.hops (p.node :: next :: rest)) % 32 ≠ 0 :=
  h.carries.shift _ ((mem_tails _ _).mpr (suffix_append p.visited _))
    (cons_ne_nil _ (net.hops (next :: rest)))

theorem OnPath.way_next :
    next ∈ net.neighbors p.node ∧ Way net.neighbors dest next (next :: rest) := by
  obtain ⟨next', rest', heq, hnext, hway⟩ := h.way.next h.ne_dest
  obtain ⟨rfl, rfl⟩ := List.cons.inj (List.cons.inj heq).2
  exact ⟨hnext, hway⟩

theorem OnPath.forward (hremain : Remain nixVector (net.hops (next :: rest))) : net.OnPath
      { p with nixVector := nixVector, visited := p.visited ++ [p.node], node := next } dest rest where
  address := h.address
  way := h.way_next.2
  path := by
    rw [h.path]
    exact congrArg some (append_assoc p.visited [p.node] _).symm
  carries := by
    have hsame := append_assoc p.visited [p.node] (next :: rest)
    simp only
    rw [hsame]
    exact h.carries
  remain := hremain

end

theorem transmit_of_leads (h : net.Leads node rtentry next)
    (packet : net.Node → Packet net.numberOfNodes) :
    net.transmit node rtentry packet = [packet next] := by
  obtain ⟨i, hpeer⟩ := h
  rw [transmit, hpeer]

/-! ## 4. Steps -/

theorem step_arrive_last (hp : w.inFlight[i]? = some p) (h : net.OnPath p dest []) :
    net.step w (.arrive i) = .ok { w with
      inFlight := w.inFlight.eraseIdx i
      delivered := w.delivered ++ [{ p with visited := p.visited ++ [p.node] }] } := by
  have haddress := h.address
  rw [← h.eq_dest] at haddress
  rw [step, hp]
  simp only
  rw [if_pos (isDestinationAddress_of_getNodeByIp haddress)]

theorem OnPath.delivered (h : net.OnPath p dest []) :
    net.Delivered { p with visited := p.visited ++ [p.node] } where
  address := h.eq_dest ▸ h.address
  path := h.eq_dest ▸ h.path
  consumed := h.remain.remaining

theorem step_arrive_next (hw : ∀ node, net.Consistent node (w.nodes node))
    (hp : w.inFlight[i]? = some p) (h : net.OnPath p dest (next :: rest)) :
    ∃ st nixVector, net.step w (.arrive i) = .ok { w with
        nodes := update w.nodes p.node st
        inFlight := w.inFlight.eraseIdx i ++
          [{ p with nixVector := nixVector, visited := p.visited ++ [p.node], node := next }] } ∧
      net.Consistent p.node st ∧ Remain nixVector (net.hops (next :: rest)) := by
  obtain ⟨st, rtentry, nixVector, hroute, hst, hleads, hremain⟩ :=
    routeInput_spec (hw p.node) h.address h.way h.way_next.1 h.remain h.shift
  have hother := h.carries.others p.node (mem_append_right _ mem_cons_self) h.ne_dest
  refine ⟨st, nixVector, ?_, hst, hremain⟩
  rw [step, hp]
  simp only [hother, hroute, except_ok_bind, transmit_of_leads hleads]
  rfl

theorem step_send (hw : ∀ node, net.Consistent node (w.nodes node))
    (haddress : net.getNodeByIp address = some dest) (hne : node ≠ dest)
    (hpath : net.bfsPath node dest none = some l)
    (hfits : net.Fits (.send node address oif)) : ∃ next rest st nixVector,
      l = node :: next :: rest ∧
      net.step w (.send node address oif) = .ok { w with
        nodes := update w.nodes node st
        inFlight := w.inFlight ++ [⟨node, address, nixVector, [node], next⟩] } ∧
      net.Consistent node st ∧ net.OnPath ⟨node, address, nixVector, [node], next⟩ dest rest := by
  obtain ⟨hoif, hcarries⟩ := hfits dest haddress
  have hway := bfsPath_none_eq_some.mp hpath
  obtain ⟨next, rest, rfl, hnext, hrest⟩ := hway.next hne
  obtain ⟨st, rtentry, nixVector, hroute, hst, hleads, hremain⟩ := routeOutput_spec (hw node)
    haddress hne (hoif.trans hpath) hway hnext (hcarries _ hpath)
  refine ⟨next, rest, st, nixVector, rfl, ?_, hst,
    ⟨haddress, hrest, hpath, hcarries _ hpath, hremain⟩⟩
  rw [step, hroute]
  simp only [except_ok_bind, transmit_of_leads hleads]

theorem step_inv (hw : net.Inv w) (e : Event net.numberOfNodes) (hfits : net.Fits e) :
    ∃ w', net.step w e = .ok w' ∧ net.Inv w' := by
  have herased : ∀ i, ∀ p ∈ w.inFlight.eraseIdx i, ∃ dest rest, net.OnPath p dest rest :=
    fun i p hp => hw.inFlight p (mem_of_mem_eraseIdx hp)
  cases e with
  | lose i => exact ⟨_, rfl, hw.nodes, herased i, hw.delivered⟩
  | arrive i =>
    cases hp : w.inFlight[i]? with
    | none => exact ⟨w, by rw [step, hp], hw⟩
    | some p =>
      obtain ⟨dest, rest, hon⟩ := hw.inFlight p (mem_of_getElem? hp)
      cases rest with
      | nil =>
        refine ⟨_, step_arrive_last hp hon, hw.nodes, herased i, fun q hq => ?_⟩
        rcases mem_append.mp hq with hq | hq
        · exact hw.delivered q hq
        · exact mem_singleton.mp hq ▸ hon.delivered
      | cons next rest =>
        obtain ⟨st, nixVector, hstep, hst, hremain⟩ := step_arrive_next hw.nodes hp hon
        refine ⟨_, hstep, Consistent.update hw.nodes hst, fun q hq => ?_, hw.delivered⟩
        rcases mem_append.mp hq with hq | hq
        · exact herased i q hq
        · exact ⟨dest, rest, mem_singleton.mp hq ▸ hon.forward hremain⟩
  | send node address oif =>
    by_cases hsome : ∃ dest l, net.getNodeByIp address = some dest ∧ node ≠ dest ∧
        net.bfsPath node dest none = some l
    · obtain ⟨dest, l, haddress, hne, hpath⟩ := hsome
      obtain ⟨next, rest, st, nixVector, -, hstep, hst, hon⟩ :=
        step_send hw.nodes haddress hne hpath hfits
      refine ⟨_, hstep, Consistent.update hw.nodes hst, fun q hq => ?_, hw.delivered⟩
      rcases mem_append.mp hq with hq | hq
      · exact hw.inFlight q hq
      · exact ⟨dest, rest, mem_singleton.mp hq ▸ hon⟩
    · have hnone : net.routeOutput node address oif (w.nodes node) = .ok (w.nodes node, none) :=
        routeOutput_none (hw.nodes node) fun dest haddress => by
          by_cases heq : node = dest
          · exact .inl heq
          · have hpath : net.bfsPath node dest none = none := by
              cases hpath : net.bfsPath node dest none with
              | none => rfl
              | some l => exact absurd ⟨dest, l, haddress, heq, hpath⟩ hsome
            exact .inr ⟨hpath, (hfits dest haddress).1.trans hpath⟩
      refine ⟨{ w with nodes := update w.nodes node (w.nodes node) }, ?_,
        Consistent.update hw.nodes (hw.nodes node), hw.inFlight, hw.delivered⟩
      rw [step, hnone]
      simp only [except_ok_bind, append_nil]

/-! ## 5. Runs -/

theorem last_packet {front : List (Packet net.numberOfNodes)}
    (hflight : w.inFlight = front ++ [p]) :
    w.inFlight[front.length]? = some p ∧ w.inFlight.eraseIdx front.length = front := by
  rw [hflight]
  refine ⟨getElem?_concat_length, ?_⟩
  rw [eraseIdx_append_of_length_le (Nat.le_refl _), Nat.sub_self]
  exact append_nil front

theorem exists_delivered (hw : ∀ node, net.Consistent node (w.nodes node))
    {front : List (Packet net.numberOfNodes)} (hflight : w.inFlight = front ++ [p])
    (h : net.OnPath p dest rest) : ∃ w' q,
      (List.replicate (rest.length + 1) (.arrive front.length)).foldlM net.step w = .ok w' ∧
        w'.delivered = w.delivered ++ [q] ∧ q.source = p.source ∧ q.destination = p.destination ∧
        net.Delivered q := by
  induction rest generalizing w p with
  | nil =>
    obtain ⟨hp, -⟩ := last_packet hflight
    have hlast := step_arrive_last hp h
    refine ⟨{ w with
      inFlight := w.inFlight.eraseIdx front.length
      delivered := w.delivered ++ [{ p with visited := p.visited ++ [p.node] }] }, _, ?_, rfl, rfl,
      rfl, h.delivered⟩
    rw [length_nil, replicate_one, foldlM_cons, hlast]
    rfl
  | cons next rest ih =>
    obtain ⟨hp, hrest⟩ := last_packet hflight
    obtain ⟨st, nixVector, hstep, hst, hremain⟩ := step_arrive_next hw hp h
    rw [hrest] at hstep
    obtain ⟨w', q, hrun, hdelivered, hsource, hdest, hq⟩ :=
      @ih _ { w with
        nodes := update w.nodes p.node st
        inFlight := front ++ [{ p with
          nixVector := nixVector, visited := p.visited ++ [p.node], node := next }] }
        (Consistent.update hw hst) rfl (h.forward hremain)
    refine ⟨w', q, ?_, hdelivered, hsource, hdest, hq⟩
    rw [length_cons, replicate_succ, foldlM_cons, hstep]
    exact hrun

/-- A packet on its way has come along the path that its source finds, still has the bits for the
rest of it, and its node reads the index that was stored for the next. -/
structure Right (net : Network) (w : World net.numberOfNodes) : Prop where
  inFlight : ∀ p ∈ w.inFlight, ∃ dest rest, net.getNodeByIp p.destination = some dest ∧
    net.bfsPath p.source dest none = some (p.visited ++ p.node :: rest) ∧
    (getRemainingBits p.nixVector).toNat = bits (net.hops (p.node :: rest)) ∧
    ∀ next rest', rest = next :: rest' → ∃ nixVector,
      extractNeighborIndex
          (bitCount (net.countNeighbors p.node (w.nodes p.node)).totalNeighbors) p.nixVector =
        .ok ((net.hop p.node next).1, nixVector)
  delivered : ∀ p ∈ w.delivered, net.Delivered p

theorem Inv.right (h : net.Inv w) : net.Right w where
  delivered := h.delivered
  inFlight := fun p hp => by
    obtain ⟨dest, rest, hon⟩ := h.inFlight p hp
    refine ⟨dest, rest, hon.address, hon.path, hon.remain.remaining, fun next rest' hrest => ?_⟩
    subst hrest
    obtain ⟨nixVector, hextract, -⟩ := extractNeighborIndex_hop hon.remain hon.shift
    rw [(h.nodes p.node).countNeighbors]
    exact ⟨nixVector, hextract⟩

/-- After any packets that fit, all are on the paths of their sources, and a further packet is
delivered along the path of its source. -/
theorem delivers_along_path (net : Network) (events : List (Event net.numberOfNodes))
    (hfits : ∀ e ∈ events, net.Fits e) : ∃ w, net.run events = .ok w ∧ net.Right w ∧
      ∀ node address dest, net.getNodeByIp address = some dest → node ≠ dest →
        Relation.ReflTransGen (fun a b => b ∈ net.neighbors a) node dest →
        net.Fits (.send node address none) →
        ∃ path w' p, net.bfsPath node dest none = some path ∧
          net.run (events ++ .send node address none ::
            List.replicate (path.length - 1) (.arrive w.inFlight.length)) = .ok w' ∧
          w'.delivered = w.delivered ++ [p] ∧ p.source = node ∧ p.destination = address ∧
          net.Delivered p := by
  obtain ⟨w, hrun, hw⟩ := foldlM_invariant (s := {}) net.Inv (fun _ e hw => step_inv hw e) inv_initial hfits
  refine ⟨w, hrun, hw.right, fun node address dest haddress hne hreach hsend => ?_⟩
  obtain ⟨path, hway⟩ := BreadthFirst.exists_way hreach
  have hpath := bfsPath_none_eq_some.mpr hway
  obtain ⟨next, rest, st, nixVector, rfl, hstep, hst, hon⟩ :=
    step_send hw.nodes haddress hne hpath hsend
  obtain ⟨w', q, harrivals, hdelivered, hsource, hdest, hq⟩ :=
    @exists_delivered net dest rest _ { w with
      nodes := Function.update w.nodes node st
      inFlight := w.inFlight ++ [⟨node, address, nixVector, [node], next⟩] }
      (Consistent.update hw.nodes hst) w.inFlight rfl hon
  refine ⟨_, w', q, hpath, ?_, hdelivered, hsource, hdest, hq⟩
  rw [run, List.foldlM_append, hrun, except_ok_bind, List.foldlM_cons, hstep]
  exact harrivals

/-! ## 6. Chains -/

/-- What a network asks of its devices. -/
structure Joined {n : Nat} (devices : Fin n → List (NetDevice n)) : Prop where
  peer_peer : ∀ node, ∀ i < (devices node).length, ∀ remote ∈ peerOf devices node i,
    peerOf devices remote.1 remote.2 = some (node, i)
  unique : ((List.finRange n).flatMap (addressesOf devices)).Nodup
  devices_lt : ∀ node, (devices node).length < 2 ^ 32

abbrev ofDevices {n : Nat} (devices : Fin n → List (NetDevice n)) (h : Joined devices) : Network where
  numberOfNodes := n
  devices := devices
  unique := h.unique
  devices_lt := h.devices_lt
  peer_peer := fun node i node' i' hpeer => by
    have hi : i < (devices node).length := by
      by_contra hge
      rw [peerOf, List.getElem?_eq_none (Nat.not_lt.mp hge)] at hpeer
      cases hpeer
    exact h.peer_peer node i hi (node', i') hpeer

/-- The link from the `k`-th node of a chain to the next has the addresses `10.0.k.1` and
`10.0.k.2`. -/
def linkAddress (k : Nat) (side : BitVec 32) : Ipv4Address :=
  0x0a000000 + BitVec.ofNat 32 (256 * k) + side

/-- The devices of a node in a chain: to the next node, to the one before, and the loopback. -/
def chainDevices (n : Nat) (node : Fin n) : List (NetDevice n) :=
  (if h : node.1 + 1 < n then
    [{ addresses := [⟨linkAddress node.1 1, 0xffffff00⟩],
       peer := some (⟨node.1 + 1, h⟩, if node.1 + 2 < n then 1 else 0) }]
  else []) ++
  (if 0 < node.1 then
    [{ addresses := [⟨linkAddress (node.1 - 1) 2, 0xffffff00⟩],
       peer := some (⟨node.1 - 1, Nat.lt_of_le_of_lt (Nat.sub_le _ _) node.2⟩, 0) }]
  else []) ++
  [{ loopback := true, addresses := [⟨0x7f000001, 0xff000000⟩], peer := none }]

/-- Two hops of one bit each. -/
abbrev chain3 : Network :=
  ofDevices (chainDevices 3)
    ⟨by decide +kernel, by decide +kernel, by decide +kernel⟩

/-- 32 hops of one bit each. -/
abbrev chain33 : Network :=
  ofDevices (chainDevices 33)
    ⟨by decide +kernel, by decide +kernel, by decide +kernel⟩

theorem chain3_fits : chain3.Fits (.send (0 : Fin 3) (linkAddress 1 2) none) := by
  intro dest hdest
  have haddress : chain3.getNodeByIp (linkAddress 1 2) = some (2 : Fin 3) := by decide +kernel
  obtain rfl := Option.some.inj (haddress.symm.trans hdest)
  refine ⟨rfl, fun l hl => ?_⟩
  have hpath : chain3.bfsPath (0 : Fin 3) (2 : Fin 3) none = some ([0, 1, 2] : List (Fin 3)) := by
    decide +kernel
  obtain rfl := Option.some.inj (hpath.symm.trans hl)
  exact ⟨by decide +kernel, by decide +kernel, by decide +kernel⟩

/-- A second packet follows the first along a chain of three nodes. -/
theorem delivers_along_path_chain : ∃ w,
    chain3.run [.send (0 : Fin 3) (linkAddress 1 2) none] = .ok w ∧ chain3.Right w ∧
      ∃ path w' p, chain3.bfsPath (0 : Fin 3) (2 : Fin 3) none = some path ∧
        chain3.run ([.send (0 : Fin 3) (linkAddress 1 2) none] ++
          .send (0 : Fin 3) (linkAddress 1 2) none ::
            List.replicate (path.length - 1) (.arrive w.inFlight.length)) = .ok w' ∧
        w'.delivered = w.delivered ++ [p] ∧ p.source = (0 : Fin 3) ∧
        p.destination = linkAddress 1 2 ∧ chain3.Delivered p := by
  obtain ⟨w, hrun, hright, hnext⟩ := delivers_along_path chain3
    [.send (0 : Fin 3) (linkAddress 1 2) none] (List.forall_mem_singleton.mpr chain3_fits)
  have hfirst : (1 : Fin 3) ∈ chain3.neighbors (0 : Fin 3) := by decide +kernel
  have hsecond : (2 : Fin 3) ∈ chain3.neighbors (1 : Fin 3) := by decide +kernel
  exact ⟨w, hrun, hright, hnext (0 : Fin 3) (linkAddress 1 2) (2 : Fin 3) (by decide +kernel)
    (by decide) (.head hfirst (.single hsecond)) chain3_fits⟩

/-- The first packet to the end of a chain with 32 bits for the way is not sent. -/
theorem full_word_shift : chain33.getNodeByIp (linkAddress 31 2) = some (32 : Fin 33) ∧
    (chain33.bfsPath (0 : Fin 33) (32 : Fin 33) none).isSome ∧
    chain33.run [.send (0 : Fin 33) (linkAddress 31 2) none] = .error .shift := by
  refine ⟨by decide +kernel, by decide +kernel, ?_⟩
  have hfailure : (match chain33.run [.send (0 : Fin 33) (linkAddress 31 2) none] with
      | .error e => some e
      | .ok _ => none) = some Failure.shift := by
    decide +kernel
  split at hfailure
  · next e herror =>
    rw [herror]
    exact congrArg Except.error (Option.some.inj hfailure)
  · cases hfailure

end MoeJit.NixVectorRouting.Network
