import MoeJit.NixVectorRouting.Routing

/-!
# The path in a nix-vector

`BuildNixVector` writes the indices for the nodes of the path that `BFS` found
(`buildNixVector_of_way`), and `FindNetDeviceForNixIndex` finds at each node a device that leads to
the next one (`hop_leads`), though the three functions go through the devices in different ways.
-/

namespace MoeJit.NixVectorRouting.Network

open List
open BreadthFirst (loop way_of_loop)

open PacketSerialization (NixVector)
open BreadthFirst (Way Follows)

variable (net : Network)

/-! ## 1. Neighbours -/

/-- The devices at the other ends of the links of some devices. -/
def remotes (devices : List (NetDevice net.numberOfNodes)) : List (net.Node × Nat) :=
  devices.flatMap net.getAdjacentNetDevices

/-- The neighbours of a node, in the order of the search. -/
def neighbors (node : net.Node) : List net.Node := (net.remotes (net.devices node)).map Prod.fst

/-- The same with the devices that the search goes through. -/
def usedNeighbors (source : net.Node) (oif : Option Nat) (node : net.Node) : List net.Node :=
  (net.remotes (net.usedDevices source oif node)).map Prod.fst

variable {net}

theorem mem_getAdjacentNetDevices {device : NetDevice net.numberOfNodes} {remote : net.Node × Nat}
    (h : remote ∈ net.getAdjacentNetDevices device) : device.peer = some remote := by
  rw [getAdjacentNetDevices] at h
  split at h
  · cases h
  · next hpeer =>
    split at h
    · split at h
      · rw [mem_singleton.mp h, hpeer]
      · cases h
    · cases h

theorem length_getAdjacentNetDevices_le (device : NetDevice net.numberOfNodes) :
    (net.getAdjacentNetDevices device).length ≤ 1 := by
  rw [getAdjacentNetDevices]
  split
  · exact Nat.zero_le 1
  · split
    · split
      · exact Nat.le_refl 1
      · exact Nat.zero_le 1
    · exact Nat.zero_le 1

theorem length_remotes_le (devices : List (NetDevice net.numberOfNodes)) :
    (net.remotes devices).length ≤ devices.length := by
  induction devices with
  | nil => exact le_refl 0
  | cons device devices ih =>
    rw [remotes, flatMap_cons, length_append, length_cons, add_comm]
    exact add_le_add ih (length_getAdjacentNetDevices_le device)

theorem findTotalNeighbors_eq (node : net.Node) :
    net.findTotalNeighbors node = (net.remotes (net.devices node)).length := by
  rw [findTotalNeighbors, remotes, length_flatMap]

theorem findTotalNeighbors_lt (node : net.Node) : net.findTotalNeighbors node < 2 ^ 32 := by
  rw [findTotalNeighbors_eq]
  exact (length_remotes_le _).trans_lt (net.devices_lt node)

/-! ## 2. The search -/

theorem bfsLoop_eq (source dest : net.Node) (oif : Option Nat) (fuel : Nat)
    (st : BreadthFirst.State net.Node) : net.bfsLoop source dest oif fuel st =
      loop (net.usedNeighbors source oif) dest fuel st := by
  induction fuel generalizing st with
  | zero => rfl
  | succ fuel ih =>
    rw [bfsLoop, loop]
    cases st.queue with
    | nil => rfl
    | cons currNode queue =>
      refine if_congr Iff.rfl rfl ?_
      rw [ih, usedNeighbors.eq_def net source oif currNode, foldl_map, remotes, foldl_flatMap]

theorem bfs_eq (source dest : net.Node) (oif : Option Nat) : net.bfs source dest oif =
    loop (net.usedNeighbors source oif) dest (Fintype.card net.Node)
      ⟨[source], Function.update (fun _ => none) source (some source)⟩ := by
  rw [bfs, bfsLoop_eq, Fintype.card_fin]

variable {fuel : Nat} {oif : Option Nat}

variable {parent : net.Node → Option net.Node} {source node : net.Node} {l : List net.Node}

theorem followParents_of_follows {pre rest later : List net.Node}
    (hfollows : Follows parent (pre ++ [node])) (hnodup : (pre ++ [node]).Nodup)
    (hfirst : pre ++ [node] = source :: rest) (hfuel : pre.length < fuel) :
    net.followParents parent source fuel node later = some (pre ++ node :: later) := by
  induction pre using List.reverseRecOn generalizing node rest later fuel with
  | nil =>
    obtain rfl : node = source := (List.cons.inj hfirst).1
    cases fuel with
    | zero => cases hfuel
    | succ fuel => rw [followParents, if_pos rfl, nil_append]
  | append_singleton pre parentNode ih =>
    cases fuel with
    | zero => cases hfuel
    | succ fuel =>
      rw [length_append, length_singleton] at hfuel
      have hparent : parent node = some parentNode := by
        rw [Follows, append_assoc] at hfollows
        have hpair := List.IsChain.right_of_append hfollows
        exact hpair.rel
      have hne : source ≠ node := by
        rintro rfl
        cases pre with
        | nil =>
          obtain rfl : parentNode = source := (List.cons.inj hfirst).1
          exact absurd hnodup (by simp)
        | cons first pre =>
          obtain rfl : first = source := (List.cons.inj hfirst).1
          exact absurd hnodup (by simp)
      obtain ⟨rest', hrest'⟩ : ∃ rest', pre ++ [parentNode] = source :: rest' := by
        cases pre with
        | nil => exact ⟨[], by rw [nil_append, (List.cons.inj hfirst).1]⟩
        | cons first pre => exact ⟨pre ++ [parentNode], by
            rw [cons_append, (List.cons.inj hfirst).1]⟩
      rw [followParents, if_neg hne, hparent]
      simp only
      rw [ih (List.IsChain.left_of_append hfollows) (nodup_append.mp hnodup).1 hrest'
        (Nat.lt_of_succ_lt_succ hfuel), append_assoc, singleton_append]

/-- What is found is the first way along the devices that are used. -/
theorem bfsPath_eq_some {dest : net.Node} :
    net.bfsPath source dest oif = some l ↔ Way (net.usedNeighbors source oif) dest source l := by
  have hfound : ∀ parent l', Way (net.usedNeighbors source oif) dest source l' → Follows parent l' →
        net.followParents parent source net.numberOfNodes dest [] = some l' := by
    intro parent l' hway hfollows
    obtain ⟨rest, hrest⟩ := hway.eq_cons
    obtain ⟨pre, rfl⟩ := getLast?_eq_some_iff.mp hway.getLast?
    have hlen := hway.nodup.length_le_card
    rw [Fintype.card_fin, length_append, length_singleton] at hlen
    exact followParents_of_follows hfollows hway.nodup hrest hlen
  constructor
  · intro h
    obtain ⟨parent, hbfs, hl⟩ := Option.bind_eq_some_iff.mp h
    rw [bfs_eq] at hbfs
    obtain ⟨l', hway, hfollows⟩ := way_of_loop hbfs
    rw [hfound parent l' hway hfollows] at hl
    exact Option.some.inj hl ▸ hway
  · intro h
    obtain ⟨parent, hloop, hfollows⟩ := h.loop
    rw [bfsPath, bfs_eq, hloop]
    exact hfound parent l h hfollows

/-! ## 3. Indices -/

/-- What a search for a node comes to: the place of the last match, or what it started with. -/
def LastPlace (dest : net.Node) (before start : Nat) (l : List (net.Node × Nat)) (res : Nat) :
    Prop :=
  (∃ j, l[j]?.map Prod.fst = some dest ∧ res = before + j) ∨
    (dest ∉ l.map Prod.fst ∧ res = start)

theorem LastPlace.append {dest : net.Node} {before start mid res : Nat}
    {l l' : List (net.Node × Nat)} (h : LastPlace dest before start l mid)
    (h' : LastPlace dest (before + l.length) mid l' res) :
    LastPlace dest before start (l ++ l') res := by
  rcases h' with ⟨j, hj, rfl⟩ | ⟨hout', rfl⟩
  · refine .inl ⟨l.length + j, ?_, Nat.add_assoc _ _ _⟩
    rwa [getElem?_append_right (Nat.le_add_right _ _), Nat.add_sub_cancel_left]
  · rcases h with ⟨j, hj, rfl⟩ | ⟨hout, rfl⟩
    · refine .inl ⟨j, ?_, rfl⟩
      have hlt : j < l.length := by
        by_contra hge
        rw [getElem?_eq_none (Nat.not_lt.mp hge)] at hj
        cases hj
      rwa [getElem?_append_left hlt]
    · refine .inr ⟨fun hin => ?_, rfl⟩
      rw [map_append] at hin
      exact (mem_append.mp hin).elim hout hout'

theorem scanContainer_spec (dest : net.Node) (totalNeighbors offset destId : Nat)
    (l : List (net.Node × Nat)) : LastPlace dest (totalNeighbors + offset) destId l
      (net.scanContainer dest totalNeighbors offset destId l) := by
  induction l generalizing offset destId with
  | nil => exact .inr ⟨not_mem_nil, rfl⟩
  | cons remote l ih =>
    rw [scanContainer]
    refine LastPlace.append (l := [remote]) ?_ (ih (offset + 1) _)
    by_cases heq : remote.1 = dest
    · rw [if_pos heq]
      exact .inl ⟨0, congrArg some heq, rfl⟩
    · rw [if_neg heq]
      exact .inr ⟨fun hin => heq (mem_singleton.mp hin).symm, rfl⟩

theorem scanDevices_spec (dest : net.Node) (destId totalNeighbors : Nat)
    (devices : List (NetDevice net.numberOfNodes)) :
    LastPlace dest totalNeighbors destId (net.remotes devices)
        (net.scanDevices dest destId totalNeighbors devices).1 ∧
      (net.scanDevices dest destId totalNeighbors devices).2 =
        totalNeighbors + (net.remotes devices).length := by
  induction devices generalizing destId totalNeighbors with
  | nil => exact ⟨.inr ⟨not_mem_nil, rfl⟩, rfl⟩
  | cons device devices ih =>
    rw [scanDevices, remotes, flatMap_cons]
    obtain ⟨hplace, htotal⟩ := ih (net.scanContainer dest totalNeighbors 0 destId
      (net.getAdjacentNetDevices device))
      (totalNeighbors + (net.getAdjacentNetDevices device).length)
    refine ⟨(scanContainer_spec dest totalNeighbors 0 destId _).append hplace, ?_⟩
    rw [htotal, length_append, add_assoc]
    rfl

theorem findNetDevice_spec {j i totalNeighbors : Nat}
    {devices : List (NetDevice net.numberOfNodes)} {remote : net.Node × Nat}
    (h : (net.remotes devices)[j]? = some remote) : ∃ k device,
      net.findNetDevice (totalNeighbors + j) i totalNeighbors devices = some (i + k, remote) ∧
        devices[k]? = some device ∧ remote ∈ net.getAdjacentNetDevices device := by
  induction devices generalizing j i totalNeighbors with
  | nil => cases h
  | cons device devices ih =>
    rw [remotes, flatMap_cons] at h
    rw [findNetDevice, Nat.add_sub_cancel_left]
    rcases lt_or_ge j (net.getAdjacentNetDevices device).length with hlt | hge
    · rw [getElem?_append_left hlt] at h
      rw [h]
      exact ⟨0, device, rfl, rfl, mem_of_getElem? h⟩
    · rw [getElem?_append_right hge] at h
      rw [getElem?_eq_none hge]
      obtain ⟨k, device', hfind, hdevice, hmem⟩ := @ih (j - (net.getAdjacentNetDevices device).length)
        (i + 1) (totalNeighbors + (net.getAdjacentNetDevices device).length) h
      rw [add_assoc totalNeighbors, Nat.add_sub_cancel' hge] at hfind
      refine ⟨k + 1, device', ?_, hdevice, hmem⟩
      rw [hfind, add_assoc, add_comm 1]

theorem peerOf_of_mem {k : Nat} {device : NetDevice net.numberOfNodes} {remote : net.Node × Nat}
    (hdevice : (net.devices node)[k]? = some device) (h : remote ∈ net.getAdjacentNetDevices device)
    : peerOf net.devices node k = some remote := by
  rw [peerOf, hdevice]
  exact mem_getAdjacentNetDevices h

theorem hop_fst_toNat (node next : net.Node) :
    (net.hop node next).1.toNat = (net.scanDevices next 0 0 (net.devices node)).1 := by
  have hlt := findTotalNeighbors_lt node
  obtain ⟨hplace, -⟩ := scanDevices_spec next 0 0 (net.devices node)
  rw [hop, BitVec.toNat_ofNat, Nat.mod_eq_of_lt]
  rcases hplace with ⟨j, hj, hres⟩ | ⟨-, hres⟩
  · obtain ⟨remote, hremote, -⟩ := Option.map_eq_some_iff.mp hj
    have hj' := (List.getElem?_eq_some_iff.mp hremote).1
    rw [← findTotalNeighbors_eq] at hj'
    omega
  · omega

theorem hop_lt (node next : net.Node) : (net.hop node next).1.toNat < 2 ^ (net.hop node next).2 := by
  obtain ⟨hplace, -⟩ := scanDevices_spec next 0 0 (net.devices node)
  rw [hop_fst_toNat]
  rcases hplace with ⟨j, hj, hres⟩ | ⟨-, hres⟩
  · obtain ⟨remote, hremote, -⟩ := Option.map_eq_some_iff.mp hj
    have hj' := (List.getElem?_eq_some_iff.mp hremote).1
    rw [← findTotalNeighbors_eq] at hj'
    rw [hres, zero_add]
    exact lt_two_pow_bitCount hj' (findTotalNeighbors_lt node).le
  · rw [hres]
    exact Nat.two_pow_pos _

theorem hop_leads {next : net.Node} (h : next ∈ net.neighbors node) : ∃ i, peerOf net.devices node
      (net.findNetDeviceForNixIndex node (net.hop node next).1.toNat).1 = some (next, i) := by
  obtain ⟨hplace, -⟩ := scanDevices_spec next 0 0 (net.devices node)
  rcases hplace with ⟨j, hj, hres⟩ | ⟨hout, -⟩
  · obtain ⟨remote, hremote, rfl⟩ := Option.map_eq_some_iff.mp hj
    obtain ⟨k, device, hfind, hdevice, hmem⟩ := @findNetDevice_spec net j 0 0 _ _ hremote
    rw [hop_fst_toNat, hres, findNetDeviceForNixIndex, hfind, zero_add]
    exact ⟨remote.2, peerOf_of_mem hdevice hmem⟩
  · exact absurd h hout

/-! ## 4. The nix-vector -/

theorem hops_pos (node next : net.Node) : 0 < (net.hop node next).2 := bitCount_pos _

theorem hop_le (node next : net.Node) : (net.hop node next).2 ≤ 32 := bitCount_le _

theorem hops_cons (node next : net.Node) (rest : List net.Node) :
    net.hops (node :: next :: rest) = net.hop node next :: net.hops (next :: rest) := rfl

theorem bits_hops_append (front l : List net.Node) :
    bits (net.hops l) ≤ bits (net.hops (front ++ l)) := by
  induction front with
  | nil => exact Nat.le_refl _
  | cons node front ih =>
    refine ih.trans ?_
    rw [cons_append]
    cases hrest : front ++ l with
    | nil => exact Nat.zero_le _
    | cons next rest =>
      rw [hops_cons, bits_cons]
      exact Nat.le_add_left _ _

theorem followParents_append {later : List net.Node}
    (h : net.followParents parent source fuel node later = some l) :
    ∃ front, l = front ++ node :: later := by
  induction fuel generalizing node later with
  | zero => cases h
  | succ fuel ih =>
    rw [followParents] at h
    split at h
    · exact ⟨[], (Option.some.inj h).symm⟩
    · split at h
      · cases h
      · next parentNode _ =>
        obtain ⟨front, rfl⟩ := ih h
        exact ⟨front ++ [parentNode], by rw [append_assoc, singleton_append]⟩

theorem buildNixVector_of_followParents {later : List net.Node} {nix : NixVector}
    (h : net.followParents parent source fuel node later = some l)
    (hbuilt : Built nix (net.hops (node :: later))) (hbits : bits (net.hops l) < 2 ^ 32) :
    ∃ nix', net.buildNixVector parent source fuel node nix = .ok (true, nix') ∧
      Built nix' (net.hops l) := by
  induction fuel generalizing node later nix with
  | zero => cases h
  | succ fuel ih =>
    rw [followParents] at h
    rw [buildNixVector]
    split at h
    · next heq =>
      rw [if_pos heq]
      exact ⟨nix, rfl, Option.some.inj h ▸ hbuilt⟩
    · next hne =>
      rw [if_neg hne]
      split at h
      · cases h
      · next parentNode hparent =>
        obtain ⟨front, hfront⟩ := followParents_append h
        have hfit : bits (net.hop parentNode node :: net.hops (node :: later)) < 2 ^ 32 := by
          rw [hfront] at hbits
          exact (bits_hops_append front (parentNode :: node :: later)).trans_lt hbits
        obtain ⟨nix', hadd, hbuilt'⟩ := hbuilt.add (hop_lt parentNode node)
          (hops_pos parentNode node) (hop_le parentNode node) hfit
        obtain ⟨nix'', hrest, hdone⟩ := ih h hbuilt'
        obtain ⟨-, htotal⟩ := scanDevices_spec node 0 0 (net.devices parentNode)
        rw [zero_add, ← findTotalNeighbors_eq] at htotal
        rw [hop] at hadd
        refine ⟨nix'', ?_, hdone⟩
        simp only
        rw [htotal, hadd, except_ok_bind, hrest, except_ok_bind]

/-- A new nix-vector holds the indices for the path that the search finds. -/
theorem getNixVector_of_bfsPath {dest : net.Node} {address : Ipv4Address}
    (haddr : net.getNodeByIp address = some dest) (hne : source ≠ dest)
    (h : net.bfsPath source dest oif = some l) (hbits : bits (net.hops l) < 2 ^ 32) :
    ∃ nix, net.getNixVector source address oif = .ok (some nix) ∧ Built nix (net.hops l) := by
  obtain ⟨parent, hbfs, hl⟩ := Option.bind_eq_some_iff.mp h
  obtain ⟨nix, hbuild, hbuilt⟩ := buildNixVector_of_followParents hl built_nil hbits
  refine ⟨nix, ?_, hbuilt⟩
  rw [getNixVector, haddr]
  simp only
  rw [if_neg hne, hbfs]
  simp only
  rw [hbuild, except_ok_bind]
  rfl

theorem getNixVector_of_bfsPath_none {dest : net.Node} {address : Ipv4Address}
    (haddr : net.getNodeByIp address = some dest) (h : net.bfsPath source dest oif = none) :
    net.getNixVector source address oif = .ok none := by
  rw [getNixVector, haddr]
  simp only
  split
  · rfl
  · cases hbfs : net.bfs source dest oif with
    | none => rfl
    | some parent =>
      rw [bfs_eq] at hbfs
      obtain ⟨l, hway, -⟩ := way_of_loop hbfs
      rw [bfsPath_eq_some.mpr hway] at h
      cases h

end MoeJit.NixVectorRouting.Network
