import MoeJit.NixVectorRouting.NixBits
import MoeJit.Lib.BreadthFirst

/-!
# Nix-vector routing

`Ipv4NixVectorRouting` on nodes that are joined by point-to-point links. The source of a packet
finds a path with a breadth-first search and writes the index of the next neighbour at each node of
the path into a nix-vector, which is then read by the nodes, each of which counts its neighbours
again.
The source keeps its nix-vectors by destination, and every node its routes.

All interfaces are up and the topology does not change, so the epoch, the flushing of the caches and
the checks of interfaces are left out, as are packets to the loopback address, the source address of
a route, and bridges. Hosts follow the weak end system model, which is the default.
-/

namespace MoeJit.NixVectorRouting

open PacketSerialization (NixVector)

abbrev Ipv4Address := BitVec 32

/-! ## 1. Networks -/

structure Ipv4InterfaceAddress where
  localAddress : Ipv4Address
  mask : BitVec 32

def Ipv4InterfaceAddress.isInSameSubnet (a : Ipv4InterfaceAddress) (b : Ipv4Address) : Bool :=
  a.localAddress &&& a.mask = b &&& a.mask

def Ipv4InterfaceAddress.getBroadcast (a : Ipv4InterfaceAddress) : Ipv4Address :=
  a.localAddress ||| ~~~a.mask

def isMulticast (address : Ipv4Address) : Bool := 0xe0000000 ≤ address ∧ address ≤ 0xefffffff

def isBroadcast (address : Ipv4Address) : Bool := address = 0xffffffff

/-- A device and its interface. `peer` is the device at the other end of its channel. -/
structure NetDevice (n : Nat) where
  loopback : Bool := false
  addresses : List Ipv4InterfaceAddress
  peer : Option (Fin n × Nat)

/-- `GetInterfaceByNetDevice`: loopback devices are not in its map. -/
def NetDevice.interfaceAddresses {n : Nat} (device : NetDevice n) :
    Option (List Ipv4InterfaceAddress) :=
  if device.loopback then none else some device.addresses

/-- The device that a device is joined with. -/
def peerOf {n : Nat} (devices : Fin n → List (NetDevice n)) (node : Fin n) (i : Nat) :
    Option (Fin n × Nat) :=
  (devices node)[i]?.bind (·.peer)

/-- The addresses in the map of `GetNodeByIp`. -/
def addressesOf {n : Nat} (devices : Fin n → List (NetDevice n)) (node : Fin n) :
    List Ipv4Address :=
  (devices node).flatMap fun device =>
    (device.interfaceAddresses.getD []).map (·.localAddress)

structure Network where
  numberOfNodes : Nat
  devices : Fin numberOfNodes → List (NetDevice numberOfNodes)
  peer_peer : ∀ node i node' i', peerOf devices node i = some (node', i') →
    peerOf devices node' i' = some (node, i)
  /-- `BuildIpAddressToNodeMap` aborts otherwise. -/
  unique : ((List.finRange numberOfNodes).flatMap (addressesOf devices)).Nodup
  /-- The number of devices is a word. -/
  devices_lt : ∀ node, (devices node).length < 2 ^ 32

abbrev Network.Node (net : Network) : Type := Fin net.numberOfNodes

namespace Network

variable (net : Network)

def getNodeByIp (address : Ipv4Address) : Option net.Node :=
  (List.finRange net.numberOfNodes).find? fun node => address ∈ addressesOf net.devices node

def isDestinationAddress (node : net.Node) (address : Ipv4Address) : Bool :=
  isMulticast address || isBroadcast address ||
    (net.devices node).any fun device => device.addresses.any fun a =>
      address = a.localAddress || address = a.getBroadcast

def getAdjacentNetDevices (device : NetDevice net.numberOfNodes) : List (net.Node × Nat) :=
  match device.peer with
  | none => []
  | some (node, i) =>
    match device.interfaceAddresses, (net.devices node)[i]?.bind (·.interfaceAddresses) with
    | some addresses, some remoteAddresses =>
      if addresses.any fun a => remoteAddresses.any fun b => a.isInSameSubnet b.localAddress then
        [(node, i)]
      else []
    | _, _ => []

def findTotalNeighbors (node : net.Node) : Nat :=
  ((net.devices node).map fun device => (net.getAdjacentNetDevices device).length).sum

/-! ## 2. Nix-vectors -/

/-- The search through one container in `BuildNixVector`. -/
def scanContainer (dest : net.Node) (totalNeighbors : Nat) :
    Nat → Nat → List (net.Node × Nat) → Nat
  | _, destId, [] => destId
  | offset, destId, remote :: rest =>
    scanContainer dest totalNeighbors (offset + 1)
      (if remote.1 = dest then totalNeighbors + offset else destId) rest

/-- The loop over the devices in `BuildNixVector`: `destId` and `totalNeighbors`. -/
def scanDevices (dest : net.Node) :
    Nat → Nat → List (NetDevice net.numberOfNodes) → Nat × Nat
  | destId, totalNeighbors, [] => (destId, totalNeighbors)
  | destId, totalNeighbors, device :: devices =>
    scanDevices dest
      (net.scanContainer dest totalNeighbors 0 destId (net.getAdjacentNetDevices device))
      (totalNeighbors + (net.getAdjacentNetDevices device).length) devices

/-- The recursion goes from the destination back to the source. -/
def buildNixVector (parentVector : net.Node → Option net.Node) (source : net.Node) :
    Nat → net.Node → NixVector → Except Failure (Bool × NixVector)
  | 0, _, nixVector => .ok (false, nixVector)
  | fuel + 1, dest, nixVector =>
    if source = dest then .ok (true, nixVector)
    else
      match parentVector dest with
      | none => .ok (false, nixVector)
      | some parentNode => do
        let (destId, totalNeighbors) := net.scanDevices dest 0 0 (net.devices parentNode)
        let nixVector ←
          addNeighborIndex (BitVec.ofNat 32 destId) (bitCount totalNeighbors) nixVector
        let (_, nixVector) ← buildNixVector parentVector source fuel parentNode nixVector
        .ok (true, nixVector)

/-- The devices that the search goes through; with a requested device the source only uses that
one. -/
def usedDevices (source : net.Node) (oif : Option Nat) (currNode : net.Node) :
    List (NetDevice net.numberOfNodes) :=
  match oif with
  | some i =>
    if currNode = source then ((net.devices currNode)[i]?).toList else net.devices currNode
  | none => net.devices currNode

/-- The loop of `BFS`. -/
def bfsLoop (source dest : net.Node) (oif : Option Nat) :
    Nat → BreadthFirst.State net.Node → Option (net.Node → Option net.Node)
  | 0, _ => none
  | fuel + 1, st =>
    match st.queue with
    | [] => none
    | currNode :: queue =>
      if currNode = dest then some st.parent
      else
        bfsLoop source dest oif fuel
          ((net.usedDevices source oif currNode).foldl (fun st device =>
            (net.getAdjacentNetDevices device).foldl (fun st remote =>
              BreadthFirst.discover currNode st remote.1) st) ⟨queue, st.parent⟩)

/-- The parent vector, if the destination is found. -/
def bfs (source dest : net.Node) (oif : Option Nat) : Option (net.Node → Option net.Node) :=
  net.bfsLoop source dest oif net.numberOfNodes
    ⟨[source], Function.update (fun _ => none) source (some source)⟩

def getNixVector (source : net.Node) (dest : Ipv4Address) (oif : Option Nat) :
    Except Failure (Option NixVector) :=
  match net.getNodeByIp dest with
  | none => .ok none
  | some destNode =>
    if source = destNode then .ok none
    else
      match net.bfs source destNode oif with
      | none => .ok none
      | some parentVector => do
        let (found, nixVector) ←
          net.buildNixVector parentVector source net.numberOfNodes destNode {}
        .ok (if found then some nixVector else none)

/-- The loop of `FindNetDeviceForNixIndex`. -/
def findNetDevice (nodeIndex : Nat) :
    Nat → Nat → List (NetDevice net.numberOfNodes) → Option (Nat × net.Node × Nat)
  | _, _, [] => none
  | i, totalNeighbors, device :: devices =>
    match (net.getAdjacentNetDevices device)[nodeIndex - totalNeighbors]? with
    | some gateway => some (i, gateway)
    | none =>
      findNetDevice nodeIndex (i + 1)
        (totalNeighbors + (net.getAdjacentNetDevices device).length) devices

/-- `GetAddress(0)` of the interface. -/
def firstAddress (device : net.Node × Nat) : Ipv4Address :=
  (((net.devices device.1)[device.2]?.bind (·.addresses.head?)).map (·.localAddress)).getD 0

def findNetDeviceForNixIndex (node : net.Node) (nodeIndex : Nat) :
    Nat × Ipv4Address :=
  match net.findNetDevice nodeIndex 0 0 (net.devices node) with
  | some (index, gateway) => (index, net.firstAddress gateway)
  | none => (0, 0x66666666)

end Network

/-! ## 3. Routing -/

structure Ipv4Route where
  gateway : Ipv4Address
  outputDevice : Nat

structure NodeState where
  nixCache : Ipv4Address → Option NixVector := fun _ => none
  ipRouteCache : Ipv4Address → Option Ipv4Route := fun _ => none
  totalNeighbors : Nat := 0

namespace Network

variable (net : Network)

/-- `m_totalNeighbors`, which is counted at its first use. -/
def countNeighbors (node : net.Node) (st : NodeState) : NodeState :=
  if st.totalNeighbors = 0 then { st with totalNeighbors := net.findTotalNeighbors node } else st

/-- The nix-vector from the cache, or a new one. -/
def lookupNixVector (node : net.Node) (destAddress : Ipv4Address) (oif : Option Nat)
    (st : NodeState) : Except Failure (NodeState × Option NixVector) :=
  match st.nixCache destAddress with
  | some nixVector => .ok (st, some nixVector)
  | none => do
    match ← net.getNixVector node destAddress oif with
    | some nixVector =>
      .ok ({ st with nixCache := Function.update st.nixCache destAddress (some nixVector) },
        some nixVector)
    | none => .ok (st, none)

/-- `RouteOutput`: the route and the nix-vector that the packet takes along. -/
def routeOutput (node : net.Node) (destAddress : Ipv4Address) (oif : Option Nat)
    (st : NodeState) : Except Failure (NodeState × Option (Ipv4Route × NixVector)) := do
  let (st, nixVectorInCache) ← net.lookupNixVector node destAddress oif st
  match nixVectorInCache with
  | none => .ok (st, none)
  | some nixVector =>
    let st := net.countNeighbors node st
    let (nodeIndex, nixVector) ← extractNeighborIndex (bitCount st.totalNeighbors) nixVector
    let (index, gateway) := net.findNetDeviceForNixIndex node nodeIndex.toNat
    let built : Ipv4Route := ⟨gateway, oif.getD index⟩
    let rtentry := match st.ipRouteCache destAddress with
      | some rtentry => if some rtentry.outputDevice = oif then rtentry else built
      | none => built
    .ok ({ st with ipRouteCache := Function.update st.ipRouteCache destAddress (some rtentry) },
      some (rtentry, nixVector))

/-- `RouteInput` of a packet that is not for this node. -/
def routeInput (node : net.Node) (destAddress : Ipv4Address) (nixVector : NixVector)
    (st : NodeState) : Except Failure (NodeState × Ipv4Route × NixVector) := do
  let st := net.countNeighbors node st
  let (nodeIndex, nixVector) ← extractNeighborIndex (bitCount st.totalNeighbors) nixVector
  match st.ipRouteCache destAddress with
  | some rtentry => .ok (st, rtentry, nixVector)
  | none =>
    let (index, gateway) := net.findNetDeviceForNixIndex node nodeIndex.toNat
    let rtentry : Ipv4Route := ⟨gateway, index⟩
    .ok ({ st with ipRouteCache := Function.update st.ipRouteCache destAddress (some rtentry) },
      rtentry, nixVector)

end Network

/-! ## 4. Packets -/

/-- A packet on its way to `node`. `source` and `visited` are records of where it was; no modelled
function reads them. -/
structure Packet (n : Nat) where
  source : Fin n
  destination : Ipv4Address
  nixVector : NixVector
  visited : List (Fin n)
  node : Fin n

structure World (n : Nat) where
  nodes : Fin n → NodeState := fun _ => {}
  inFlight : List (Packet n) := []
  delivered : List (Packet n) := []

inductive Event (n : Nat)
  | send (node : Fin n) (destAddress : Ipv4Address) (oif : Option Nat)
  /-- A packet comes to the other end of a link. -/
  | arrive (i : Nat)
  | lose (i : Nat)

namespace Network

variable (net : Network)

/-- A packet that leaves through a device goes to the other end of its link. -/
def transmit (node : net.Node) (rtentry : Ipv4Route)
    (packet : net.Node → Packet net.numberOfNodes) : List (Packet net.numberOfNodes) :=
  match peerOf net.devices node rtentry.outputDevice with
  | some (next, _) => [packet next]
  | none => []

def step (w : World net.numberOfNodes) :
    Event net.numberOfNodes → Except Failure (World net.numberOfNodes)
  | .send node destAddress oif => do
    let (st, out) ← net.routeOutput node destAddress oif (w.nodes node)
    let sent := match out with
      | some (rtentry, nixVector) =>
        net.transmit node rtentry fun next => ⟨node, destAddress, nixVector, [node], next⟩
      | none => []
    .ok { w with nodes := Function.update w.nodes node st, inFlight := w.inFlight ++ sent }
  | .arrive i =>
    match w.inFlight[i]? with
    | none => .ok w
    | some p =>
      if net.isDestinationAddress p.node p.destination then
        .ok { w with
          inFlight := w.inFlight.eraseIdx i
          delivered := w.delivered ++ [{ p with visited := p.visited ++ [p.node] }] }
      else do
        let (st, rtentry, nixVector) ←
          net.routeInput p.node p.destination p.nixVector (w.nodes p.node)
        .ok { w with
          nodes := Function.update w.nodes p.node st
          inFlight := w.inFlight.eraseIdx i ++ net.transmit p.node rtentry fun next =>
            { p with nixVector := nixVector, visited := p.visited ++ [p.node], node := next } }
  | .lose i => .ok { w with inFlight := w.inFlight.eraseIdx i }

def run (events : List (Event net.numberOfNodes)) : Except Failure (World net.numberOfNodes) :=
  events.foldlM net.step {}

/-! ## 5. The path -/

/-- The way back from a node to the source along the parents. -/
def followParents (parentVector : net.Node → Option net.Node) (source : net.Node) :
    Nat → net.Node → List net.Node → Option (List net.Node)
  | 0, _, _ => none
  | fuel + 1, node, later =>
    if source = node then some (node :: later)
    else
      match parentVector node with
      | none => none
      | some parentNode => followParents parentVector source fuel parentNode (node :: later)

/-- The path that `BFS` finds. -/
def bfsPath (source dest : net.Node) (oif : Option Nat) : Option (List net.Node) :=
  (net.bfs source dest oif).bind fun parentVector =>
    net.followParents parentVector source net.numberOfNodes dest []

/-- The index that `BuildNixVector` stores for the next node of a path, and its width. -/
def hop (node next : net.Node) : BitVec 32 × Nat :=
  (BitVec.ofNat 32 (net.scanDevices next 0 0 (net.devices node)).1,
    bitCount (net.findTotalNeighbors node))

/-- The indices for a path. -/
def hops : List net.Node → List (BitVec 32 × Nat)
  | node :: next :: rest => net.hop node next :: hops (next :: rest)
  | _ => []

end Network

end MoeJit.NixVectorRouting
