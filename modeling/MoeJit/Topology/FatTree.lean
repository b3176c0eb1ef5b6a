import MoeJit.Lib.PointToPoint
import Mathlib.Data.Finset.Sort
import Mathlib.Data.List.Range

/-!
# The fat tree

The relations of `topology_hedera` in `fattree-test-with-hedera.cpp`, the pods that
`HederaRoutingHelper::calculatePods` makes of them, and the links that are installed.

Nodes are numbered in the order of their creation: core, aggregation and edge
switches, then servers. A set is walked in an order that the program does not
choose: everything here holds for any `HashOrder`.

`maps_inverse`: the relations are mutually inverse.
-/

namespace MoeJit.FatTree

open PointToPoint List
open Finset (mem_insert)

/-! ## 1. The relations -/

/-- `unordered_map<NS3NodeID, unordered_set<NS3NodeID>>`. -/
abbrev SetMap := Nat → Option (Finset Nat)

/-- The order in which a set is walked. -/
structure HashOrder where
  toList : Finset Nat → List Nat
  mem_toList : ∀ S x, x ∈ toList S ↔ x ∈ S

structure FatTreeTopology where
  coreSwitches : Finset Nat
  coreToAggregation : SetMap
  aggregationToCore : SetMap
  aggregationToEdge : SetMap
  edgeToAggregation : SetMap
  edgeToHost : SetMap
  hostToEdge : Nat → Option Nat
  pods : List (Finset Nat)

/-- `m[x].insert(y)` for all pairs. -/
def insertAll (l : List (Nat × Nat)) : SetMap :=
  l.foldl (fun m p => Function.update m p.1 (some (insert p.2 ((m p.1).getD ∅)))) fun _ => none

/-- The values of a loop from `start` to before `stop`. -/
def steps (start stop step : Nat) : List Nat :=
  List.range' start ((stop - start + step - 1) / step) step

section

variable (k : Nat)

/-- `k / 2`: the switches of either level in a pod, the servers of an edge switch. -/
def half : Nat := k / 2

def coreCount : Nat := half k * half k

def aggreCount : Nat := half k * k

def edgeCount : Nat := half k * k

def serverCount : Nat := half k * half k * k

def coreID (core_index : Nat) : Nat := core_index

def aggreID (aggre_index : Nat) : Nat := coreCount k + aggre_index

def edgeID (edge_index : Nat) : Nat := coreCount k + aggreCount k + edge_index

def serverID (server_index : Nat) : Nat :=
  coreCount k + aggreCount k + edgeCount k + server_index

/-- The servers of a pod. -/
def pod (pod_index : Nat) : Finset Nat :=
  ((steps (pod_index * half k * half k) ((pod_index + 1) * half k * half k) 1).map
    (serverID k)).toFinset

/-- `topology_hedera`. -/
def topologyHedera : FatTreeTopology where
  coreSwitches := ((List.range (coreCount k)).map coreID).toFinset
  coreToAggregation := insertAll <| (List.range (coreCount k)).flatMap fun core_index =>
    (steps (core_index / half k) (aggreCount k) (half k)).map fun aggre_index =>
      (coreID core_index, aggreID k aggre_index)
  aggregationToCore := insertAll <| (List.range (aggreCount k)).flatMap fun aggre_index =>
    (steps (aggre_index % half k * half k) ((aggre_index % half k + 1) * half k) 1).map
      fun core_index => (aggreID k aggre_index, coreID core_index)
  aggregationToEdge := insertAll <| (List.range (aggreCount k)).flatMap fun aggre_index =>
    (steps (aggre_index / half k * half k) ((aggre_index / half k + 1) * half k) 1).map
      fun edge_index => (aggreID k aggre_index, edgeID k edge_index)
  edgeToAggregation := insertAll <| (List.range (edgeCount k)).flatMap fun edge_index =>
    (steps (edge_index / half k * half k) ((edge_index / half k + 1) * half k) 1).map
      fun aggre_index => (edgeID k edge_index, aggreID k aggre_index)
  edgeToHost := insertAll <| (List.range (edgeCount k)).flatMap fun edge_index =>
    (steps (edge_index * half k) ((edge_index + 1) * half k) 1).map fun server_index =>
      (edgeID k edge_index, serverID k server_index)
  hostToEdge := (List.range (serverCount k)).foldl (fun m server_index =>
    Function.update m (serverID k server_index) (some (edgeID k (server_index / half k))))
      fun _ => none
  pods := (List.range k).map (pod k)

/-! ## 2. The links -/

def serverLinks : List (Nat × Nat) :=
  (List.range (edgeCount k)).flatMap fun switch_index =>
    (List.range (half k)).map fun server_index =>
      (edgeID k switch_index, serverID k (switch_index * half k + server_index))

def podLinks : List (Nat × Nat) :=
  (List.range k).flatMap fun group_index =>
    (List.range (half k)).flatMap fun switch_index1 =>
      (List.range (half k)).map fun switch_index2 =>
        (edgeID k (group_index * half k + switch_index1),
          aggreID k (group_index * half k + switch_index2))

def coreLinks : List (Nat × Nat) :=
  (List.range (coreCount k)).flatMap fun switch_index1 =>
    (List.range k).map fun group_index =>
      (coreID switch_index1, aggreID k (group_index * half k + switch_index1 / half k))

/-- All links, in the order of their networks. -/
def links : List (Nat × Nat) := serverLinks k ++ podLinks k ++ coreLinks k

end

/-! ## 3. Pods -/

/-- The body of the loop over the hosts of a pod: the nodes of the pod so far and
the nodes whose pod this is. -/
def addHost (order : HashOrder) (topology : FatTreeTopology) (st : Finset Nat × List Nat)
    (node : Nat) : Option (Finset Nat × List Nat) :=
  let (podNodes, keys) := st
  if node ∈ podNodes then some (podNodes, keys ++ [node])
  else do
    let podNodes := insert node podNodes
    let edgeSwitch ← topology.hostToEdge node
    if edgeSwitch ∈ podNodes then some (podNodes, keys ++ [node, edgeSwitch])
    else do
      let aggregationSwitches ← topology.edgeToAggregation edgeSwitch
      some ((order.toList aggregationSwitches).foldl (fun podNodes aggregationSwitch =>
          insert aggregationSwitch podNodes) (insert edgeSwitch podNodes),
        keys ++ [node, edgeSwitch] ++ order.toList aggregationSwitches)

/-- The body of the loop over the pods. The nodes of a pod are shared: each of its
nodes finds all of them. -/
def addPod (order : HashOrder) (topology : FatTreeTopology) (podMap : SetMap) (pod : Finset Nat) :
    Option SetMap :=
  ((order.toList pod).foldlM (addHost order topology) (∅, [])).map fun (podNodes, keys) =>
    fun node => if node ∈ keys then some podNodes else podMap node

/-- The core switches share an empty pod. -/
def addCore (topology : FatTreeTopology) (podMap : SetMap) : SetMap := fun node =>
  if node ∈ topology.coreSwitches then some ∅ else podMap node

/-- `HederaRoutingHelper::calculatePods`. -/
def calculatePods (order : HashOrder) (topology : FatTreeTopology) : Option SetMap :=
  (topology.pods.foldlM (addPod order topology) fun _ => none).map (addCore topology)

/-! ## 4. What the loops make -/

/-- `y` is in the set of `x`. -/
def Related (m : SetMap) (x y : Nat) : Prop := ∃ S, m x = some S ∧ y ∈ S

variable {x y v : Nat}

theorem related_insertAll {l : List (Nat × Nat)} : Related (insertAll l) x y ↔ (x, y) ∈ l := by
  unfold insertAll
  induction l using List.reverseRecOn with
  | nil => exact ⟨fun ⟨_, h, _⟩ => (nomatch h), fun h => (nomatch h)⟩
  | append_singleton l p ih =>
    rw [foldl_append, foldl_cons, foldl_nil, mem_append, mem_singleton, ← ih]
    generalize l.foldl _ _ = m
    unfold Related
    by_cases hx : x = p.1
    · subst hx
      rw [Function.update_self]
      constructor
      · rintro ⟨S, hS, hy⟩
        cases hS
        cases mem_insert.mp hy with
        | inl heq => exact .inr (Prod.ext rfl heq)
        | inr hmem =>
          cases hm : m p.1 with
          | none =>
            rw [hm] at hmem
            cases hmem
          | some S =>
            rw [hm] at hmem
            exact .inl ⟨S, rfl, hmem⟩
      · rintro (⟨S, hS, hy⟩ | heq)
        · refine ⟨_, rfl, Finset.mem_insert_of_mem ?_⟩
          rw [hS]
          exact hy
        · exact ⟨_, rfl, mem_insert.mpr (.inl (congrArg Prod.snd heq))⟩
    · rw [Function.update_of_ne hx]
      exact (or_iff_left fun heq => hx (congrArg Prod.fst heq)).symm

theorem Related.lookup {m : SetMap} (h : Related m x y) :
    ∃ S, m x = some S ∧ ∀ z, z ∈ S ↔ Related m x z := by
  obtain ⟨S, hS, -⟩ := h
  refine ⟨S, hS, fun z => ⟨fun hz => ⟨S, hS, hz⟩, ?_⟩⟩
  rintro ⟨S', hS', hz⟩
  cases hS.symm.trans hS'
  exact hz

theorem mem_steps {start stop step i : Nat} (hstep : 0 < step) :
    i ∈ steps start stop step ↔ start ≤ i ∧ i < stop ∧ (i - start) % step = 0 := by
  unfold steps
  rw [mem_range']
  constructor
  · rintro ⟨n, hn, rfl⟩
    have hlt : step * n < stop - start := by
      have hle : (n + 1) * step ≤ stop - start + step - 1 := (Nat.le_div_iff_mul_le hstep).mp hn
      rw [Nat.add_mul, Nat.mul_comm n] at hle
      omega
    refine ⟨Nat.le_add_right _ _, by omega, ?_⟩
    rw [Nat.add_sub_cancel_left, Nat.mul_mod_right]
  · rintro ⟨hle, hlt, hmod⟩
    obtain ⟨n, hn⟩ := Nat.dvd_of_mod_eq_zero hmod
    refine ⟨n, ?_, by omega⟩
    refine (Nat.le_div_iff_mul_le hstep).mpr ?_
    rw [Nat.succ_mul, Nat.mul_comm]
    omega

theorem mem_steps_one {start stop i : Nat} : i ∈ steps start stop 1 ↔ start ≤ i ∧ i < stop := by
  rw [mem_steps one_pos, Nat.mod_one]
  exact ⟨fun h => ⟨h.1, h.2.1⟩, fun h => ⟨h.1, h.2, rfl⟩⟩

theorem mem_of_mod {m r a : Nat} (hr : r < m) : (r ≤ a ∧ (a - r) % m = 0) ↔ a % m = r := by
  constructor
  · rintro ⟨hle, hmod⟩
    obtain ⟨n, hn⟩ := Nat.dvd_of_mod_eq_zero hmod
    rw [show a = r + m * n by omega, Nat.add_mul_mod_self_left, Nat.mod_eq_of_lt hr]
  · rintro rfl
    refine ⟨Nat.mod_le a m, ?_⟩
    rw [show a - a % m = m * (a / m) by have := Nat.div_add_mod a m; omega, Nat.mul_mod_right]

section

variable {k : Nat}

section

variable (hk : 2 ≤ k)
include hk

theorem half_pos : 0 < half k := Nat.div_pos hk (by decide)

theorem div_half_lt {c : Nat} (hc : c < coreCount k) : c / half k < half k :=
  (Nat.div_lt_iff_lt_mul (half_pos hk)).mpr hc

theorem pod_lt {i : Nat} : i < aggreCount k ↔ i / half k < k := by
  rw [Nat.div_lt_iff_lt_mul (half_pos hk), mul_comm]
  rfl

theorem edge_lt : v < serverCount k ↔ v / half k < edgeCount k := by
  rw [Nat.div_lt_iff_lt_mul (half_pos hk), edgeCount, Nat.mul_right_comm]
  rfl

/-- A core switch and an aggregation switch are related when their groups are. -/
theorem related_coreToAggregation :
    Related (topologyHedera k).coreToAggregation x y ↔ ∃ c a, c < coreCount k ∧ a < aggreCount k ∧
      x = coreID c ∧ y = aggreID k a ∧ a % half k = c / half k := by
  refine related_insertAll.trans ?_
  simp only [mem_flatMap, mem_range, mem_map, mem_steps (half_pos hk), Prod.mk.injEq]
  constructor
  · rintro ⟨c, hc, a, ⟨hle, ha, hmod⟩, hx, hy⟩
    exact ⟨c, a, hc, ha, hx.symm, hy.symm, (mem_of_mod (div_half_lt hk hc)).mp ⟨hle, hmod⟩⟩
  · rintro ⟨c, a, hc, ha, hx, hy, hmod⟩
    obtain ⟨hle, hmod⟩ := (mem_of_mod (div_half_lt hk hc)).mpr hmod
    exact ⟨c, hc, a, ⟨hle, ha, hmod⟩, hx.symm, hy.symm⟩

theorem mem_block {i n : Nat} : (n * half k ≤ i ∧ i < (n + 1) * half k) ↔ i / half k = n := by
  rw [Nat.div_eq_iff (half_pos hk), Nat.succ_mul]
  have := half_pos hk
  omega

theorem related_aggregationToCore :
    Related (topologyHedera k).aggregationToCore x y ↔ ∃ c a, c < coreCount k ∧ a < aggreCount k ∧
      y = coreID c ∧ x = aggreID k a ∧ a % half k = c / half k := by
  refine related_insertAll.trans ?_
  simp only [mem_flatMap, mem_range, mem_map, mem_steps_one, mem_block hk, Prod.mk.injEq]
  constructor
  · rintro ⟨a, ha, c, hc, hx, hy⟩
    refine ⟨c, a, ?_, ha, hy.symm, hx.symm, hc.symm⟩
    refine (Nat.div_lt_iff_lt_mul (half_pos hk)).mp ?_
    rw [hc]
    exact Nat.mod_lt _ (half_pos hk)
  · rintro ⟨c, a, -, ha, hy, hx, hmod⟩
    exact ⟨a, ha, c, hmod.symm, hx.symm, hy.symm⟩

/-- An aggregation switch and an edge switch are related when they are in one pod. -/
theorem related_aggregationToEdge :
    Related (topologyHedera k).aggregationToEdge x y ↔ ∃ a e, a < aggreCount k ∧ e < edgeCount k ∧
      x = aggreID k a ∧ y = edgeID k e ∧ a / half k = e / half k := by
  refine related_insertAll.trans ?_
  simp only [mem_flatMap, mem_range, mem_map, mem_steps_one, mem_block hk, Prod.mk.injEq]
  constructor
  · rintro ⟨a, ha, e, he, rfl, rfl⟩
    refine ⟨a, e, ha, ?_, rfl, rfl, he.symm⟩
    exact (pod_lt hk).mpr (he ▸ (pod_lt hk).mp ha)
  · rintro ⟨a, e, ha, -, rfl, rfl, hpod⟩
    exact ⟨a, ha, e, hpod.symm, rfl, rfl⟩

theorem related_edgeToAggregation :
    Related (topologyHedera k).edgeToAggregation x y ↔ ∃ a e, a < aggreCount k ∧ e < edgeCount k ∧
      y = aggreID k a ∧ x = edgeID k e ∧ a / half k = e / half k := by
  refine related_insertAll.trans ?_
  simp only [mem_flatMap, mem_range, mem_map, mem_steps_one, mem_block hk, Prod.mk.injEq]
  constructor
  · rintro ⟨e, he, a, ha, rfl, rfl⟩
    refine ⟨a, e, ?_, he, rfl, rfl, ha⟩
    exact (pod_lt hk).mpr (ha ▸ (pod_lt hk).mp he)
  · rintro ⟨a, e, -, he, rfl, rfl, hpod⟩
    exact ⟨e, he, a, hpod, rfl, rfl⟩

theorem related_edgeToHost :
    Related (topologyHedera k).edgeToHost x y ↔ ∃ v, v < serverCount k ∧ y = serverID k v ∧
      x = edgeID k (v / half k) := by
  refine related_insertAll.trans ?_
  simp only [mem_flatMap, mem_range, mem_map, mem_steps_one, mem_block hk, Prod.mk.injEq]
  constructor
  · rintro ⟨e, he, v, rfl, rfl, rfl⟩
    exact ⟨v, (edge_lt hk).mpr he, rfl, rfl⟩
  · rintro ⟨v, hv, rfl, rfl⟩
    exact ⟨v / half k, (edge_lt hk).mp hv, v, rfl, rfl, rfl⟩

end

theorem hostToEdge_eq_some :
    (topologyHedera k).hostToEdge x = some y ↔ ∃ v, v < serverCount k ∧ x = serverID k v ∧
      y = edgeID k (v / half k) := by
  constructor
  · intro h
    obtain ⟨v, hv, hkey, hval⟩ := mem_of_foldl_update h
    exact ⟨v, mem_range.mp hv, hkey.symm, hval.symm⟩
  · rintro ⟨v, hv, rfl, rfl⟩
    refine foldl_update _ _ _ (fun u _ hkey => ?_) ⟨v, mem_range.mpr hv, rfl⟩ _
    rw [Nat.add_left_cancel hkey]

/-! ## 5. What the pods are -/

/-- The servers, edge switches and aggregation switches of a pod. -/
inductive InPod (k p : Nat) : Nat → Prop
  | server {v : Nat} : v < serverCount k → v / half k / half k = p → InPod k p (serverID k v)
  | edge {e : Nat} : e < edgeCount k → e / half k = p → InPod k p (edgeID k e)
  | aggre {a : Nat} : a < aggreCount k → a / half k = p → InPod k p (aggreID k a)

theorem InPod.unique {p q : Nat} (h : InPod k p x) (h' : InPod k q x) : p = q := by
  generalize hx : x = y at h'
  cases h with
  | server hv hp =>
    cases h' with
    | server hw hq =>
      obtain rfl := Nat.add_left_cancel hx
      exact hp.symm.trans hq
    | edge he _ => simp only [serverID, edgeID] at hx; omega
    | aggre ha _ => simp only [serverID, aggreID] at hx; omega
  | edge he hp =>
    cases h' with
    | server hw _ => simp only [serverID, edgeID] at hx; omega
    | edge he' hq =>
      obtain rfl := Nat.add_left_cancel hx
      exact hp.symm.trans hq
    | aggre ha _ => simp only [edgeID, aggreID] at hx; omega
  | aggre ha hp =>
    cases h' with
    | server hw _ => simp only [serverID, aggreID] at hx; omega
    | edge he _ => simp only [edgeID, aggreID] at hx; omega
    | aggre ha' hq =>
      obtain rfl := Nat.add_left_cancel hx
      exact hp.symm.trans hq

theorem InPod.not_core {p : Nat} (h : InPod k p x) : coreCount k ≤ x := by
  cases h with
  | server _ _ => simp only [serverID]; omega
  | edge _ _ => simp only [edgeID]; omega
  | aggre _ _ => simp only [aggreID]; omega

theorem mem_pod (hk : 2 ≤ k) {p : Nat} :
    x ∈ pod k p ↔ ∃ v, v / half k / half k = p ∧ x = serverID k v := by
  have hpos : 0 < half k * half k := Nat.mul_pos (half_pos hk) (half_pos hk)
  simp only [pod, mem_toFinset, mem_map, mem_steps_one]
  refine exists_congr fun v => and_congr ?_ eq_comm
  rw [Nat.div_div_eq_div_mul, Nat.div_eq_iff hpos, mul_assoc, mul_assoc, Nat.succ_mul]
  omega

theorem server_lt (hk : 2 ≤ k) : v < serverCount k ↔ v / half k / half k < k :=
  (edge_lt hk).trans (pod_lt hk)

/-- What a host brings into its pod: itself, its edge switch and the aggregation
switches of this one. -/
def Near (topology : FatTreeTopology) (h x : Nat) : Prop :=
  x = h ∨ ∃ e, topology.hostToEdge h = some e ∧ (x = e ∨ Related topology.edgeToAggregation e x)

theorem near_iff (hk : 2 ≤ k) (hv : v < serverCount k) :
    Near (topologyHedera k) (serverID k v) x ↔ x = serverID k v ∨ x = edgeID k (v / half k) ∨
      ∃ a, a < aggreCount k ∧ x = aggreID k a ∧ a / half k = v / half k / half k := by
  have hedge : (topologyHedera k).hostToEdge (serverID k v) = some (edgeID k (v / half k)) :=
    hostToEdge_eq_some.mpr ⟨v, hv, rfl, rfl⟩
  unfold Near
  simp only [hedge, Option.some.injEq, exists_eq_left', related_edgeToAggregation hk]
  refine or_congr_right (or_congr_right ?_)
  constructor
  · rintro ⟨a, e, ha, -, rfl, heq, hpod⟩
    obtain rfl := Nat.add_left_cancel heq
    exact ⟨a, ha, rfl, hpod⟩
  · rintro ⟨a, ha, rfl, hpod⟩
    exact ⟨a, _, ha, (edge_lt hk).mp hv, rfl, rfl, hpod⟩

theorem inPod_iff (hk : 2 ≤ k) {p : Nat} (hp : p < k) :
    InPod k p x ↔ ∃ h ∈ pod k p, Near (topologyHedera k) h x := by
  have hpos := half_pos hk
  simp only [mem_pod hk]
  constructor
  · intro hx
    cases hx with
    | @server v hv hpod => exact ⟨_, ⟨v, hpod, rfl⟩, .inl rfl⟩
    | @edge e he hpod =>
      have hdiv : e * half k / half k = e := Nat.mul_div_cancel e hpos
      have hv : e * half k < serverCount k := (edge_lt hk).mpr (hdiv.symm ▸ he)
      refine ⟨_, ⟨e * half k, by rw [hdiv, hpod], rfl⟩, (near_iff hk hv).mpr (.inr (.inl ?_))⟩
      rw [hdiv]
    | @aggre a ha hpod =>
      have hdiv : p * half k * half k / half k / half k = p := by
        rw [Nat.mul_div_cancel _ hpos, Nat.mul_div_cancel _ hpos]
      have hv : p * half k * half k < serverCount k := (server_lt hk).mpr (hdiv.symm ▸ hp)
      refine ⟨_, ⟨p * half k * half k, hdiv, rfl⟩, (near_iff hk hv).mpr (.inr (.inr ?_))⟩
      exact ⟨a, ha, rfl, hpod.trans hdiv.symm⟩
  · rintro ⟨h, ⟨v, hpod, rfl⟩, hnear⟩
    have hv : v < serverCount k := (server_lt hk).mpr (hpod.symm ▸ hp)
    rcases (near_iff hk hv).mp hnear with rfl | rfl | ⟨a, ha, rfl, hpod'⟩
    · exact .server hv hpod
    · exact .edge ((edge_lt hk).mp hv) hpod
    · exact .aggre ha (hpod'.trans hpod)

theorem mem_foldl_insert {l : List Nat} {S : Finset Nat} :
    x ∈ l.foldl (fun S y => insert y S) S ↔ x ∈ S ∨ x ∈ l := by
  induction l generalizing S with
  | nil => rw [foldl_nil, or_iff_left not_mem_nil]
  | cons y l ih =>
    rw [foldl_cons, ih, mem_insert, mem_cons]
    exact or_assoc.trans or_left_comm

/-- The nodes of a pod after some of its hosts, all with a key. -/
structure PodOk (k : Nat) (hosts : List Nat) (st : Finset Nat × List Nat) : Prop where
  nodes : ∀ x, x ∈ st.1 ↔ ∃ h ∈ hosts, Near (topologyHedera k) h x
  keys : ∀ x, x ∈ st.2 ↔ x ∈ st.1

theorem near_server (hk : 2 ≤ k) {w : Nat} (hw : w < serverCount k)
    (hnear : Near (topologyHedera k) (serverID k w) (serverID k v)) :
    serverID k v = serverID k w := by
  rcases (near_iff hk hw).mp hnear with heq | heq | ⟨a, ha, heq, -⟩
  · exact heq
  · have := (edge_lt hk).mp hw
    simp only [serverID, edgeID] at heq
    omega
  · simp only [serverID, aggreID] at heq
    omega

theorem near_edge (hk : 2 ≤ k) {e w : Nat} (he : e < edgeCount k) (hw : w < serverCount k)
    (hnear : Near (topologyHedera k) (serverID k w) (edgeID k e)) : e = w / half k := by
  rcases (near_iff hk hw).mp hnear with heq | heq | ⟨a, ha, heq, -⟩
  · simp only [serverID, edgeID] at heq
    omega
  · exact Nat.add_left_cancel heq
  · simp only [edgeID, aggreID] at heq
    omega

/-- An edge switch with hosts is joined to aggregation switches. -/
theorem exists_edgeToAggregation (hk : 2 ≤ k) (hv : v < serverCount k) :
    ∃ S, (topologyHedera k).edgeToAggregation (edgeID k (v / half k)) = some S ∧
      ∀ x, x ∈ S ↔ Related (topologyHedera k).edgeToAggregation (edgeID k (v / half k)) x := by
  have hrel : Related (topologyHedera k).edgeToAggregation (edgeID k (v / half k))
      (aggreID k (v / half k / half k * half k)) := by
    have hdiv : v / half k / half k * half k / half k = v / half k / half k :=
      Nat.mul_div_cancel _ (half_pos hk)
    refine (related_edgeToAggregation hk).mpr ⟨_, _, ?_, (edge_lt hk).mp hv, rfl, rfl, hdiv⟩
    exact (pod_lt hk).mpr (hdiv.symm ▸ (server_lt hk).mp hv)
  exact hrel.lookup

theorem podOk_addHost (hk : 2 ≤ k) (order : HashOrder) {hosts : List Nat}
    {st : Finset Nat × List Nat} (hst : PodOk k hosts st)
    (hhosts : ∀ h ∈ hosts, ∃ v, v < serverCount k ∧ h = serverID k v) (hv : v < serverCount k) :
    ∃ st', addHost order (topologyHedera k) st (serverID k v) = some st' ∧
      PodOk k (hosts ++ [serverID k v]) st' := by
  obtain ⟨podNodes, keys⟩ := st
  have hnodes := hst.nodes
  have hkeys := hst.keys
  simp only at hnodes hkeys
  have hedge : (topologyHedera k).hostToEdge (serverID k v) = some (edgeID k (v / half k)) :=
    hostToEdge_eq_some.mpr ⟨v, hv, rfl, rfl⟩
  have hsplit : ∀ x, (∃ h ∈ hosts ++ [serverID k v], Near (topologyHedera k) h x) ↔
      (∃ h ∈ hosts, Near (topologyHedera k) h x) ∨ Near (topologyHedera k) (serverID k v) x := by
    intro x
    simp only [mem_append, mem_singleton, or_and_right, exists_or, exists_eq_left]
  unfold addHost
  simp only
  split
  · next hmem =>
    -- a host only gets in by itself
    refine ⟨_, rfl, fun x => ?_, fun x => ?_⟩
    · rw [hsplit, hnodes x]
      refine (or_iff_left_of_imp fun hnear => ?_).symm
      obtain ⟨h, hh, hnear'⟩ := (hnodes _).mp hmem
      obtain ⟨w, hw, rfl⟩ := hhosts h hh
      exact ⟨_, hh, near_server hk hw hnear' ▸ hnear⟩
    · rw [mem_append, mem_singleton, hkeys x]
      exact or_iff_left_of_imp fun heq => heq ▸ hmem
  · next hnew =>
    simp only [hedge, Option.bind_eq_bind, Option.bind_some]
    split
    · next hmem =>
      -- another host of the edge switch has brought its aggregation switches
      have hmem' : edgeID k (v / half k) ∈ podNodes := by
        refine (mem_insert.mp hmem).resolve_left fun heq => ?_
        have := (edge_lt hk).mp hv
        simp only [serverID, edgeID] at heq
        omega
      obtain ⟨h, hh, hnear'⟩ := (hnodes _).mp hmem'
      obtain ⟨w, hw, rfl⟩ := hhosts h hh
      have hsame := near_edge hk ((edge_lt hk).mp hv) hw hnear'
      refine ⟨_, rfl, fun x => ?_, fun x => ?_⟩
      · rw [hsplit, ← hnodes x, near_iff hk hv, mem_insert]
        constructor
        · rintro (heq | hx)
          · exact .inr (.inl heq)
          · exact .inl hx
        · rintro (hx | heq | heq | ha)
          · exact .inr hx
          · exact .inl heq
          · exact .inr (heq ▸ hmem')
          · rw [hsame] at ha
            exact .inr ((hnodes x).mpr ⟨_, hh, (near_iff hk hw).mpr (.inr (.inr ha))⟩)
      · simp only [mem_append, mem_cons, not_mem_nil, or_false, hkeys x, mem_insert]
        constructor
        · rintro (hx | heq | heq)
          · exact .inr hx
          · exact .inl heq
          · exact .inr (heq ▸ hmem')
        · rintro (heq | hx)
          · exact .inr (.inl heq)
          · exact .inl hx
    · next hnew' =>
      obtain ⟨S, hS, hmemS⟩ := exists_edgeToAggregation hk hv
      rw [hS]
      refine ⟨_, rfl, fun x => ?_, fun x => ?_⟩
      · simp only [mem_foldl_insert, mem_insert, order.mem_toList, hmemS]
        rw [hsplit, ← hnodes x]
        unfold Near
        simp only [hedge, Option.some.injEq, exists_eq_left']
        tauto
      · simp only [mem_foldl_insert, mem_insert, mem_append, mem_cons,
          not_mem_nil, or_false, hkeys x]
        tauto

theorem foldlM_addHost (hk : 2 ≤ k) (order : HashOrder) {hosts more : List Nat}
    {st : Finset Nat × List Nat} (hst : PodOk k hosts st)
    (hhosts : ∀ h ∈ hosts ++ more, ∃ v, v < serverCount k ∧ h = serverID k v) :
    ∃ st', more.foldlM (addHost order (topologyHedera k)) st = some st' ∧
      PodOk k (hosts ++ more) st' := by
  induction more generalizing hosts st with
  | nil => exact ⟨st, rfl, by rwa [append_nil]⟩
  | cons h more ih =>
    obtain ⟨v, hv, rfl⟩ := hhosts h (mem_append_right _ mem_cons_self)
    obtain ⟨st₁, hadd, hst₁⟩ := podOk_addHost hk order hst
      (fun h' hh' => hhosts h' (mem_append_left _ hh')) hv
    rw [append_cons] at hhosts ⊢
    obtain ⟨st', hmore, hst'⟩ := ih hst₁ hhosts
    refine ⟨st', ?_, hst'⟩
    rw [foldlM_cons, hadd]
    exact hmore

/-- The pods made of the first `n` sets of hosts. -/
structure PodsOk (k n : Nat) (podMap : SetMap) : Prop where
  inPod : ∀ p x, p < n → InPod k p x → ∃ S, podMap x = some S ∧ ∀ y, y ∈ S ↔ InPod k p y
  none : ∀ x, (∀ p, p < n → ¬ InPod k p x) → podMap x = Option.none

theorem podsOk_foldlM (hk : 2 ≤ k) (order : HashOrder) {n : Nat} (hn : n ≤ k) :
    ∃ podMap, ((List.range n).map (pod k)).foldlM (addPod order (topologyHedera k))
      (fun _ => none) = some podMap ∧ PodsOk k n podMap := by
  induction n with
  | zero => exact ⟨_, rfl, fun _ _ hp => absurd hp (Nat.not_lt_zero _), fun _ _ => rfl⟩
  | succ n ih =>
    obtain ⟨podMap, hfold, hok⟩ := ih (Nat.le_of_succ_le hn)
    have hhosts : ∀ h ∈ [] ++ order.toList (pod k n), ∃ v, v < serverCount k ∧ h = serverID k v := by
      intro h hh
      rw [nil_append, order.mem_toList] at hh
      obtain ⟨v, hpod, rfl⟩ := (mem_pod hk).mp hh
      exact ⟨v, (server_lt hk).mpr (hpod.symm ▸ hn), rfl⟩
    have hempty : PodOk k [] (∅, []) := ⟨fun x => by simp, fun x => by simp⟩
    obtain ⟨⟨podNodes, keys⟩, hadd, hst⟩ := foldlM_addHost hk order hempty hhosts
    have hnodes : ∀ x, x ∈ podNodes ↔ InPod k n x := by
      intro x
      rw [hst.nodes x, inPod_iff hk hn]
      simp only [nil_append, order.mem_toList]
    refine ⟨fun node => if node ∈ keys then some podNodes else podMap node, ?_, ?_, ?_⟩
    · rw [range_succ, map_append, foldlM_append, hfold]
      simp only [Option.bind_eq_bind, Option.bind_some, map_cons, map_nil,
        foldlM_cons, foldlM_nil, addPod, hadd]
      rfl
    · intro p x hp hx
      cases Nat.lt_or_eq_of_le (Nat.lt_succ_iff.mp hp) with
      | inl hlt =>
        have hother : x ∉ keys := fun hmem =>
          absurd (hx.unique ((hnodes x).mp ((hst.keys x).mp hmem))) (Nat.ne_of_lt hlt)
        show ∃ S, (if x ∈ keys then some podNodes else podMap x) = some S ∧ _
        rw [if_neg hother]
        exact hok.inPod p x hlt hx
      | inr heq =>
        subst heq
        show ∃ S, (if x ∈ keys then some podNodes else podMap x) = some S ∧ _
        rw [if_pos ((hst.keys x).mpr ((hnodes x).mpr hx))]
        exact ⟨podNodes, rfl, hnodes⟩
    · intro x hx
      have hother : x ∉ keys := fun hmem =>
        hx n (Nat.lt_succ_self n) ((hnodes x).mp ((hst.keys x).mp hmem))
      show (if x ∈ keys then some podNodes else podMap x) = none
      rw [if_neg hother]
      exact hok.none x fun p hp => hx p (Nat.lt_succ_of_lt hp)

theorem mem_coreSwitches : x ∈ (topologyHedera k).coreSwitches ↔ x < coreCount k := by
  simp only [topologyHedera, mem_toFinset, mem_map, mem_range, coreID, exists_eq_right]

/-- Every node but the core switches finds the nodes of its pod. -/
theorem calculatePods_spec (hk : 2 ≤ k) (order : HashOrder) :
    ∃ podMap, calculatePods order (topologyHedera k) = some podMap ∧
      (∀ p x, p < k → InPod k p x → ∃ S, podMap x = some S ∧ ∀ y, y ∈ S ↔ InPod k p y) ∧
      (∀ x, x < coreCount k → podMap x = some ∅) ∧
      ∀ x y, Related podMap x y ↔ ∃ p, p < k ∧ InPod k p x ∧ InPod k p y := by
  obtain ⟨podMap, hfold, hok⟩ := podsOk_foldlM hk order (le_refl k)
  have hcore : ∀ p x, InPod k p x → x ∉ (topologyHedera k).coreSwitches := fun p x hx hmem =>
    absurd (mem_coreSwitches.mp hmem) (not_lt.mpr hx.not_core)
  have hother : ∀ p x, InPod k p x → addCore (topologyHedera k) podMap x = podMap x :=
    fun p x hx => if_neg (hcore p x hx)
  refine ⟨addCore (topologyHedera k) podMap, ?_, fun p x hp hx => ?_,
    fun x hx => if_pos (mem_coreSwitches.mpr hx), fun x y => ?_⟩
  · unfold calculatePods
    exact congrArg (Option.map _) hfold
  · rw [hother p x hx]
    exact hok.inPod p x hp hx
  · unfold Related
    constructor
    · rintro ⟨S, hS, hy⟩
      unfold addCore at hS
      split at hS
      · cases hS
        cases hy
      · by_cases hx : ∃ p, p < k ∧ InPod k p x
        · obtain ⟨p, hp, hx⟩ := hx
          obtain ⟨S', hS', hmem⟩ := hok.inPod p x hp hx
          cases hS.symm.trans hS'
          exact ⟨p, hp, hx, (hmem y).mp hy⟩
        · rw [hok.none x fun p hp hx' => hx ⟨p, hp, hx'⟩] at hS
          cases hS
    · rintro ⟨p, hp, hx, hy⟩
      obtain ⟨S, hS, hmem⟩ := hok.inPod p x hp hx
      exact ⟨S, (hother p x hx).trans hS, (hmem y).mpr hy⟩

/-- The relations are mutually inverse, and the pods are the hosts that share an
aggregation switch. -/
theorem maps_inverse (hk : 2 ≤ k) : (∀ c a, Related (topologyHedera k).coreToAggregation c a ↔
      Related (topologyHedera k).aggregationToCore a c) ∧
    (∀ a e, Related (topologyHedera k).aggregationToEdge a e ↔
      Related (topologyHedera k).edgeToAggregation e a) ∧
    (∀ e h, Related (topologyHedera k).edgeToHost e h ↔ (topologyHedera k).hostToEdge h = some e) ∧
    ∀ h h', (∃ pod ∈ (topologyHedera k).pods, h ∈ pod ∧ h' ∈ pod) ↔
      ∃ e e' a, (topologyHedera k).hostToEdge h = some e ∧
        (topologyHedera k).hostToEdge h' = some e' ∧
        Related (topologyHedera k).edgeToAggregation e a ∧
        Related (topologyHedera k).edgeToAggregation e' a := by
  refine ⟨fun c a => ?_, fun a e => ?_, fun e h => ?_, fun h h' => ?_⟩
  · rw [related_coreToAggregation hk, related_aggregationToCore hk]
  · rw [related_aggregationToEdge hk, related_edgeToAggregation hk]
  · rw [related_edgeToHost hk, hostToEdge_eq_some]
  · simp only [hostToEdge_eq_some, related_edgeToAggregation hk]
    constructor
    · rintro ⟨_, hmem, hh, hh'⟩
      obtain ⟨p, hp, rfl⟩ := mem_map.mp hmem
      rw [mem_range] at hp
      obtain ⟨v, hpod, rfl⟩ := (mem_pod hk).mp hh
      obtain ⟨v', hpod', rfl⟩ := (mem_pod hk).mp hh'
      have hv : v < serverCount k := (server_lt hk).mpr (hpod.symm ▸ hp)
      have hv' : v' < serverCount k := (server_lt hk).mpr (hpod'.symm ▸ hp)
      have hdiv : p * half k / half k = p := Nat.mul_div_cancel p (half_pos hk)
      have ha : p * half k < aggreCount k := (pod_lt hk).mpr (hdiv.symm ▸ hp)
      exact ⟨_, _, _, ⟨v, hv, rfl, rfl⟩, ⟨v', hv', rfl, rfl⟩,
        ⟨_, _, ha, (edge_lt hk).mp hv, rfl, rfl, hdiv.trans hpod.symm⟩,
        ⟨_, _, ha, (edge_lt hk).mp hv', rfl, rfl, hdiv.trans hpod'.symm⟩⟩
    · rintro ⟨_, _, _, ⟨v, hv, rfl, rfl⟩, ⟨v', hv', rfl, rfl⟩, ⟨a, e, ha, he, rfl, heq, hpod⟩,
        ⟨a', e', ha', he', heqa, heq', hpod'⟩⟩
      have h₁ : v / half k = e := Nat.add_left_cancel heq
      have h₂ : v' / half k = e' := Nat.add_left_cancel heq'
      have h₃ : a = a' := Nat.add_left_cancel heqa
      refine ⟨pod k (a / half k), mem_map.mpr ⟨_, mem_range.mpr ((pod_lt hk).mp ha), rfl⟩,
        (mem_pod hk).mpr ⟨v, ?_, rfl⟩, (mem_pod hk).mpr ⟨v', ?_, rfl⟩⟩
      · rw [h₁, hpod]
      · rw [h₂, h₃, hpod']

/-! ## 6. What the links join -/

theorem wired_server (hk : 2 ≤ k) (hv : v < serverCount k) :
    Wired (links k) (serverID k v) (edgeID k (v / half k)) := by
  refine .inr (mem_append_left _ (mem_append_left _ ?_))
  simp only [serverLinks, mem_flatMap, mem_range, mem_map, Prod.mk.injEq]
  refine ⟨v / half k, (edge_lt hk).mp hv, v % half k, Nat.mod_lt _ (half_pos hk), rfl, ?_⟩
  rw [mul_comm, Nat.div_add_mod]

theorem wired_edge (hk : 2 ≤ k) {e a : Nat} (he : e < edgeCount k) (hpod : a / half k = e / half k) :
    Wired (links k) (edgeID k e) (aggreID k a) := by
  refine .inl (mem_append_left _ (mem_append_right _ ?_))
  simp only [podLinks, mem_flatMap, mem_range, mem_map, Prod.mk.injEq]
  refine ⟨e / half k, (pod_lt hk).mp he, e % half k, Nat.mod_lt _ (half_pos hk), a % half k,
    Nat.mod_lt _ (half_pos hk), ?_, ?_⟩
  · rw [mul_comm, Nat.div_add_mod]
  · rw [← hpod, mul_comm, Nat.div_add_mod]

theorem wired_core (hk : 2 ≤ k) {c a : Nat} (hc : c < coreCount k) (ha : a < aggreCount k)
    (hgroup : a % half k = c / half k) : Wired (links k) (coreID c) (aggreID k a) := by
  refine .inl (mem_append_right _ ?_)
  simp only [coreLinks, mem_flatMap, mem_range, mem_map, Prod.mk.injEq]
  refine ⟨c, hc, a / half k, (pod_lt hk).mp ha, rfl, ?_⟩
  rw [← hgroup, mul_comm, Nat.div_add_mod]

theorem wired_symm {links : List (Nat × Nat)} (h : Wired links x y) : Wired links y x := h.symm

end

end MoeJit.FatTree
