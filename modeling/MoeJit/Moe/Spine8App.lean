import MoeJit.Moe.Task
import Mathlib.Data.Finset.Prod
import Mathlib.Tactic.Ring

/-!
# Task lists of the spine-leaf scenario

`GetTasksForRank` of `spine-8app.cpp`. The servers of every active leaf are
split between eight applications. A server finds its application and its
logical rank in it from its own rank, and keeps the events of the application
in which it sends or receives something.

The quorum of a task is the number of logical nodes of its application, while
its members are the servers that keep it. `quorum_is_membership` says exactly
when the two numbers are the same.
-/

namespace MoeJit.Spine8App

open Words List

/-! ## Model -/

/-- `MoeGlobalEvent`, as far as the task lists read it. -/
structure MoeGlobalEvent where
  globalId : Nat
  startTime : Rat
  computationDelay : Rat
  /-- `trafficMatrix[src][dst]`, in bytes -/
  trafficMatrix : List (List Nat)

/-- The part of the topology that runs applications. The node indices are
`int`s. -/
structure Topology where
  serversPerLeaf : Nat
  activeLeafCount : Nat
  fits : activeLeafCount * serversPerLeaf < 2 ^ 31

/-- The event lists `g_app1_events` to `g_app8_events`. -/
abbrev AppEvents := Fin 8 → List MoeGlobalEvent

namespace Topology

variable (topo : Topology)

def activeNodes : Nat := topo.activeLeafCount * topo.serversPerLeaf

def nodesPerAppPerLeaf : Nat :=
  if topo.serversPerLeaf / 8 = 0 then 1 else topo.serversPerLeaf / 8

def logicalNodeCount : Nat := topo.activeLeafCount * topo.nodesPerAppPerLeaf

def appId (rank : Rank) : Nat := rank % topo.serversPerLeaf / topo.nodesPerAppPerLeaf

def logicalRank (rank : Rank) : Nat :=
  rank / topo.serversPerLeaf * topo.nodesPerAppPerLeaf +
    rank % topo.serversPerLeaf % topo.nodesPerAppPerLeaf

def physicalRank (logicalId app : Nat) : Rank :=
  logicalId / topo.nodesPerAppPerLeaf * topo.serversPerLeaf +
    app * topo.nodesPerAppPerLeaf + logicalId % topo.nodesPerAppPerLeaf

end Topology

/-- The entry of an event's matrix after the bounds checks of the two loops,
which compare with the sizes as `int`s. -/
def trafficEntry (ev : MoeGlobalEvent) (src dst : Nat) : Option Nat :=
  if i32 ev.trafficMatrix.length ≤ src then none
  else (ev.trafficMatrix[src]?).bind fun row =>
    if i32 row.length ≤ dst then none else row[dst]?

/-- One loop over the logical nodes: the flows that are not zero after the
division by 10, under the nodes' physical ranks. -/
def fillFlows (count : Nat) (entry : Nat → Option Nat) (physical : Nat → Rank) : FlowMap :=
  (List.range count).foldl (fun flows node =>
    match entry node with
    | none => flows
    | some volume =>
      let bytes := volume / 10
      if 0 < bytes then flows.insert (physical node) bytes else flows) ∅

/-- `task_id_offset + gev.global_id`, in 32 bits. -/
def taskIdOf (app : Nat) (ev : MoeGlobalEvent) : TaskId := u32 (app * 100000 + ev.globalId)

/-- The task a server makes of an event. -/
def taskOf (topo : Topology) (rank : Rank) (ev : MoeGlobalEvent) : MoeTask :=
  let logical := topo.logicalRank rank
  let physical := fun node => topo.physicalRank node (topo.appId rank)
  { taskId := taskIdOf (topo.appId rank) ev
    startTime := ev.startTime
    sendFlows := fillFlows topo.logicalNodeCount (fun dst => trafficEntry ev logical dst) physical
    expectedRecvFlows :=
      fillFlows topo.logicalNodeCount (fun src => trafficEntry ev src logical) physical
    computationTime := ev.computationDelay
    groupSize := topo.logicalNodeCount }

/-- The server keeps a task in which it sends or receives something. -/
def hasFlows (task : MoeTask) : Bool :=
  !task.sendFlows.entries.isEmpty || !task.expectedRecvFlows.entries.isEmpty

/-- What `current_events` points to, no events where it stays null. -/
def currentEvents (events : AppEvents) (app : Nat) : List MoeGlobalEvent :=
  if h : app < 8 then events ⟨app, h⟩ else []

/-- `GetTasksForRank`. -/
def getTasksForRank (topo : Topology) (events : AppEvents) (rank : Rank) : List MoeTask :=
  if topo.activeNodes ≤ rank then []
  else ((currentEvents events (topo.appId rank)).map (taskOf topo rank)).filter hasFlows

/-- The ranks whose list contains task `tid`. -/
def members (topo : Topology) (events : AppEvents) (tid : TaskId) : Finset Rank :=
  (Finset.range topo.activeNodes).filter fun rank =>
    (getTasksForRank topo events rank).any fun task => task.taskId = tid

/-- The quorum stored in task `tid` is the number of its members. -/
def QuorumIsMembership (topo : Topology) (events : AppEvents) (tid : TaskId) : Prop :=
  ∀ rank, ∀ task ∈ getTasksForRank topo events rank, task.taskId = tid →
    task.groupSize = (members topo events tid).card

/-! ## 1. Flows -/

theorem fillFlows_isEmpty (count : Nat) (entry : Nat → Option Nat) (physical : Nat → Rank) :
    (fillFlows count entry physical).entries.isEmpty = false ↔
      ∃ node < count, 10 ≤ (entry node).getD 0 := by
  unfold fillFlows
  induction count with
  | zero => simp
  | succ n ih =>
    rw [range_succ, foldl_append, foldl_cons, foldl_nil]
    generalize List.foldl _ _ (List.range n) = flows at ih ⊢
    -- the last node adds a flow when its volume is 10 or more
    have hlast : (∃ node < n + 1, 10 ≤ (entry node).getD 0) ↔
        (∃ node < n, 10 ≤ (entry node).getD 0) ∨ 10 ≤ (entry n).getD 0 := by
      constructor
      · rintro ⟨node, hnode, hvol⟩
        rcases Nat.lt_succ_iff_lt_or_eq.mp hnode with hlt | rfl
        · exact Or.inl ⟨node, hlt, hvol⟩
        · exact Or.inr hvol
      · rintro (⟨node, hnode, hvol⟩ | hvol)
        · exact ⟨node, by omega, hvol⟩
        · exact ⟨n, by omega, hvol⟩
    rw [hlast, ← ih]
    cases hentry : entry n with
    | none => simp
    | some volume =>
      simp only [Option.getD_some]
      split
      · next hpos =>
        have : 10 ≤ volume := by omega
        simp [AList.entries_insert, this]
      · next hzero =>
        have : ¬ 10 ≤ volume := by omega
        simp [this]

/-- Logical node `node` has a flow of at least 10 bytes, the least that is left
after the division, to or from one of the first `count` nodes. -/
def TakesPart (count : Nat) (ev : MoeGlobalEvent) (node : Nat) : Prop :=
  (∃ dst < count, 10 ≤ (trafficEntry ev node dst).getD 0) ∨
  ∃ src < count, 10 ≤ (trafficEntry ev src node).getD 0

instance (count : Nat) (ev : MoeGlobalEvent) (node : Nat) : Decidable (TakesPart count ev node) :=
  inferInstanceAs (Decidable (_ ∨ _))

theorem hasFlows_taskOf (topo : Topology) (rank : Rank) (ev : MoeGlobalEvent) :
    hasFlows (taskOf topo rank ev) = true ↔
      TakesPart topo.logicalNodeCount ev (topo.logicalRank rank) := by
  simp only [hasFlows, taskOf, TakesPart, Bool.or_eq_true, Bool.not_eq_true', fillFlows_isEmpty]

/-! ## 2. Servers and logical nodes -/

variable {rank : Rank} {events : AppEvents}

namespace Topology

variable (topo : Topology)

/-- The number of applications that have servers. -/
def appCount : Nat := min 8 topo.serversPerLeaf

theorem nodesPerAppPerLeaf_pos : 0 < topo.nodesPerAppPerLeaf := by
  unfold nodesPerAppPerLeaf
  split <;> omega

theorem appCount_mul_le : topo.appCount * topo.nodesPerAppPerLeaf ≤ topo.serversPerLeaf := by
  unfold appCount nodesPerAppPerLeaf
  split
  · omega
  · rw [min_eq_left (by omega)]
    exact Nat.mul_div_le _ _

variable {topo}

theorem appId_lt (hrank : rank < topo.activeNodes) (happ : topo.appId rank < 8) :
    topo.appId rank < topo.appCount := by
  have hS : 0 < topo.serversPerLeaf := by
    rcases Nat.eq_zero_or_pos topo.serversPerLeaf with hzero | hpos
    · rw [activeNodes, hzero, Nat.mul_zero] at hrank
      exact absurd hrank (Nat.not_lt_zero _)
    · exact hpos
  refine lt_min happ ?_
  exact Nat.lt_of_le_of_lt (Nat.div_le_self _ _) (Nat.mod_lt _ hS)

theorem logicalRank_lt (hrank : rank < topo.activeNodes) :
    topo.logicalRank rank < topo.logicalNodeCount := by
  have hleaf : rank / topo.serversPerLeaf < topo.activeLeafCount :=
    Nat.div_lt_of_lt_mul (by rw [mul_comm]; exact hrank)
  have hlocal := Nat.mod_lt (rank % topo.serversPerLeaf) topo.nodesPerAppPerLeaf_pos
  calc topo.logicalRank rank
      < rank / topo.serversPerLeaf * topo.nodesPerAppPerLeaf + topo.nodesPerAppPerLeaf :=
        Nat.add_lt_add_left hlocal _
    _ = (rank / topo.serversPerLeaf + 1) * topo.nodesPerAppPerLeaf := (Nat.succ_mul _ _).symm
    _ ≤ topo.logicalNodeCount := Nat.mul_le_mul_right _ hleaf

/-- A server is found again from its application and logical rank. -/
theorem physicalRank_logicalRank (rank : Rank) :
    topo.physicalRank (topo.logicalRank rank) (topo.appId rank) = rank := by
  have hpos := topo.nodesPerAppPerLeaf_pos
  have hlocal := Nat.mod_lt (rank % topo.serversPerLeaf) hpos
  have hdiv : topo.logicalRank rank / topo.nodesPerAppPerLeaf = rank / topo.serversPerLeaf := by
    rw [logicalRank, mul_comm, Nat.mul_add_div hpos, Nat.div_eq_of_lt hlocal, add_zero]
  have hmod : topo.logicalRank rank % topo.nodesPerAppPerLeaf =
      rank % topo.serversPerLeaf % topo.nodesPerAppPerLeaf := by
    rw [logicalRank, mul_comm, Nat.mul_add_mod, Nat.mod_mod]
  rw [physicalRank, hdiv, hmod, appId, add_assoc, Nat.div_add_mod', Nat.div_add_mod']

section

variable {app : Nat} (node : Nat) (happ : app < topo.appCount)

include happ

theorem local_lt : app * topo.nodesPerAppPerLeaf + node % topo.nodesPerAppPerLeaf <
    topo.serversPerLeaf := by
  calc app * topo.nodesPerAppPerLeaf + node % topo.nodesPerAppPerLeaf
      < app * topo.nodesPerAppPerLeaf + topo.nodesPerAppPerLeaf :=
        Nat.add_lt_add_left (Nat.mod_lt _ topo.nodesPerAppPerLeaf_pos) _
    _ = (app + 1) * topo.nodesPerAppPerLeaf := (Nat.succ_mul _ _).symm
    _ ≤ topo.appCount * topo.nodesPerAppPerLeaf := Nat.mul_le_mul_right _ happ
    _ ≤ topo.serversPerLeaf := topo.appCount_mul_le

theorem physicalRank_div_mod :
    topo.physicalRank node app / topo.serversPerLeaf = node / topo.nodesPerAppPerLeaf ∧
    topo.physicalRank node app % topo.serversPerLeaf =
      app * topo.nodesPerAppPerLeaf + node % topo.nodesPerAppPerLeaf := by
  have hlt : app * topo.nodesPerAppPerLeaf + node % topo.nodesPerAppPerLeaf <
      topo.serversPerLeaf := local_lt node happ
  have hsplit : topo.physicalRank node app = topo.serversPerLeaf *
      (node / topo.nodesPerAppPerLeaf) +
        (app * topo.nodesPerAppPerLeaf + node % topo.nodesPerAppPerLeaf) := by
    rw [physicalRank, mul_comm, add_assoc]
  constructor
  · rw [hsplit, Nat.mul_add_div (Nat.zero_lt_of_lt hlt), Nat.div_eq_of_lt hlt, add_zero]
  · rw [hsplit, Nat.mul_add_mod, Nat.mod_eq_of_lt hlt]

theorem appId_physicalRank : topo.appId (topo.physicalRank node app) = app := by
  rw [appId, (physicalRank_div_mod node happ).2, mul_comm,
    Nat.mul_add_div topo.nodesPerAppPerLeaf_pos,
    Nat.div_eq_of_lt (Nat.mod_lt _ topo.nodesPerAppPerLeaf_pos), add_zero]

theorem logicalRank_physicalRank : topo.logicalRank (topo.physicalRank node app) = node := by
  obtain ⟨hdiv, hmod⟩ := physicalRank_div_mod node happ
  rw [logicalRank, hdiv, hmod, mul_comm app, Nat.mul_add_mod, Nat.mod_mod, Nat.div_add_mod']

theorem physicalRank_lt (hnode : node < topo.logicalNodeCount) :
    topo.physicalRank node app < topo.activeNodes := by
  have hleaf : node / topo.nodesPerAppPerLeaf < topo.activeLeafCount :=
    Nat.div_lt_of_lt_mul (by rw [mul_comm]; exact hnode)
  calc topo.physicalRank node app
      < node / topo.nodesPerAppPerLeaf * topo.serversPerLeaf + topo.serversPerLeaf := by
        rw [physicalRank, add_assoc]
        exact Nat.add_lt_add_left (local_lt node happ) _
    _ = (node / topo.nodesPerAppPerLeaf + 1) * topo.serversPerLeaf := (Nat.succ_mul _ _).symm
    _ ≤ topo.activeNodes := Nat.mul_le_mul_right _ hleaf

end

end Topology

/-! ## 3. Members -/

theorem mem_members {topo : Topology} {tid : TaskId} : rank ∈ members topo events tid ↔
      ∃ task ∈ getTasksForRank topo events rank, task.taskId = tid := by
  simp only [members, Finset.mem_filter, Finset.mem_range, any_eq_true, decide_eq_true_eq]
  constructor
  · exact And.right
  · rintro ⟨task, htask, heq⟩
    refine ⟨?_, task, htask, heq⟩
    by_contra hout
    rw [getTasksForRank, if_pos (not_lt.mp hout)] at htask
    exact absurd htask not_mem_nil

theorem groupSize_of_mem {topo : Topology} {task : MoeTask}
    (h : task ∈ getTasksForRank topo events rank) : task.groupSize = topo.logicalNodeCount := by
  rw [getTasksForRank] at h
  split at h
  · exact absurd h not_mem_nil
  · obtain ⟨ev, -, rfl⟩ := mem_map.mp (mem_of_mem_filter h)
    rfl

/-- The logical nodes, with their applications, that take part in an event of
task `tid`. -/
def takingPart (topo : Topology) (events : AppEvents) (tid : TaskId) : Finset (Nat × Nat) :=
  (Finset.range topo.appCount ×ˢ Finset.range topo.logicalNodeCount).filter fun p =>
    ∃ ev ∈ currentEvents events p.1, taskIdOf p.1 ev = tid ∧
      TakesPart topo.logicalNodeCount ev p.2

theorem mem_members_iff {topo : Topology} {tid : TaskId} :
    rank ∈ members topo events tid ↔ rank < topo.activeNodes ∧
      (topo.appId rank, topo.logicalRank rank) ∈ takingPart topo events tid := by
  rw [mem_members, getTasksForRank]
  simp only [takingPart, Finset.mem_filter, Finset.mem_product, Finset.mem_range]
  constructor
  · rintro ⟨task, htask, heq⟩
    split at htask
    · exact absurd htask not_mem_nil
    next hrank =>
    have hrank := not_le.mp hrank
    obtain ⟨hmem, hflows⟩ := mem_filter.mp htask
    obtain ⟨ev, hev, rfl⟩ := mem_map.mp hmem
    have happ : topo.appId rank < 8 := by
      by_contra hout
      rw [currentEvents, dif_neg hout] at hev
      exact absurd hev not_mem_nil
    exact ⟨hrank, ⟨Topology.appId_lt hrank happ, Topology.logicalRank_lt hrank⟩, ev, hev, heq,
      (hasFlows_taskOf topo rank ev).mp hflows⟩
  · rintro ⟨hrank, -, ev, hev, heq, htakes⟩
    rw [if_neg (not_le.mpr hrank)]
    exact ⟨taskOf topo rank ev, mem_filter.mpr ⟨mem_map_of_mem hev,
      (hasFlows_taskOf topo rank ev).mpr htakes⟩, heq⟩

theorem card_members (topo : Topology) (events : AppEvents) (tid : TaskId) :
    (members topo events tid).card = (takingPart topo events tid).card := by
  refine Finset.card_bij (fun rank _ => (topo.appId rank, topo.logicalRank rank)) ?_ ?_ ?_
  · intro rank hrank
    exact (mem_members_iff.mp hrank).2
  · intro rank _ rank' _ heq
    obtain ⟨happ, hlogical⟩ := Prod.mk.inj heq
    rw [← topo.physicalRank_logicalRank rank, ← topo.physicalRank_logicalRank rank', happ, hlogical]
  · rintro ⟨app, node⟩ hp
    have hrange := (Finset.mem_filter.mp hp).1
    simp only [Finset.mem_product, Finset.mem_range] at hrange
    obtain ⟨happ, hnode⟩ := hrange
    have hpair : (topo.appId (topo.physicalRank node app),
        topo.logicalRank (topo.physicalRank node app)) = (app, node) := by
      rw [Topology.appId_physicalRank node happ, Topology.logicalRank_physicalRank node happ]
    exact ⟨topo.physicalRank node app,
      mem_members_iff.mpr ⟨Topology.physicalRank_lt node happ hnode, by rw [hpair]; exact hp⟩, hpair⟩

/-! ## 4. Quorum and membership -/

theorem quorumIsMembership_iff (topo : Topology) (events : AppEvents) (tid : TaskId) :
    QuorumIsMembership topo events tid ↔ takingPart topo events tid = ∅ ∨
      (takingPart topo events tid).card = topo.logicalNodeCount := by
  rw [← card_members, ← Finset.card_eq_zero, ← card_members, Finset.card_eq_zero]
  constructor
  · intro h
    rcases (members topo events tid).eq_empty_or_nonempty with hempty | ⟨rank, hrank⟩
    · exact Or.inl hempty
    · obtain ⟨task, htask, heq⟩ := mem_members.mp hrank
      exact Or.inr ((h rank task htask heq).symm.trans (groupSize_of_mem htask))
  · intro h rank task htask heq
    have hrank : rank ∈ members topo events tid := mem_members.mpr ⟨task, htask, heq⟩
    rcases h with hempty | hcard
    · rw [hempty] at hrank
      exact absurd hrank (Finset.notMem_empty rank)
    · rw [groupSize_of_mem htask, hcard]

/-- The only event, of all applications with servers, that makes task `tid`. -/
def OnlyEvent (topo : Topology) (events : AppEvents) (app : Nat) (ev : MoeGlobalEvent) : Prop :=
  app < topo.appCount ∧ ev ∈ currentEvents events app ∧
  ∀ app' < topo.appCount, ∀ ev' ∈ currentEvents events app',
    taskIdOf app' ev' = taskIdOf app ev → app' = app ∧ ev' = ev

theorem takingPart_of_onlyEvent {topo : Topology} {app : Nat} {ev : MoeGlobalEvent}
    (h : OnlyEvent topo events app ev) :
    takingPart topo events (taskIdOf app ev) =
      ((Finset.range topo.logicalNodeCount).filter (TakesPart topo.logicalNodeCount ev)).map
        ⟨fun node => (app, node), Prod.mk_right_injective app⟩ := by
  obtain ⟨happ, hev, honly⟩ := h
  ext ⟨app', node⟩
  simp only [takingPart, Finset.mem_filter, Finset.mem_product, Finset.mem_range, Finset.mem_map,
    Function.Embedding.coeFn_mk, Prod.mk.injEq]
  constructor
  · rintro ⟨⟨happ', hnode⟩, ev', hev', heq, htakes⟩
    obtain ⟨rfl, rfl⟩ := honly app' happ' ev' hev' heq
    exact ⟨node, ⟨hnode, htakes⟩, rfl, rfl⟩
  · rintro ⟨node', ⟨hnode, htakes⟩, rfl, rfl⟩
    exact ⟨⟨happ, hnode⟩, ev, hev, rfl, htakes⟩

/-- The quorum stored in a task is the number of servers that keep it exactly
when its events leave out every logical node of the applications, or bring in
as many as one application has. For an id made by one event only: when every
logical node takes part in the event, or none does. -/
theorem quorum_is_membership (topo : Topology) (events : AppEvents) :
    (∀ tid, QuorumIsMembership topo events tid ↔ takingPart topo events tid = ∅ ∨
      (takingPart topo events tid).card = topo.logicalNodeCount) ∧
    ∀ app ev, OnlyEvent topo events app ev →
      (QuorumIsMembership topo events (taskIdOf app ev) ↔
        (∀ node < topo.logicalNodeCount, TakesPart topo.logicalNodeCount ev node) ∨
        ∀ node < topo.logicalNodeCount, ¬ TakesPart topo.logicalNodeCount ev node) := by
  refine ⟨quorumIsMembership_iff topo events, fun app ev honly => ?_⟩
  have hall := Finset.card_filter_eq_iff (s := Finset.range topo.logicalNodeCount)
    (p := TakesPart topo.logicalNodeCount ev)
  rw [Finset.card_range] at hall
  rw [quorumIsMembership_iff, takingPart_of_onlyEvent honly, Finset.card_map, hall,
    Finset.map_eq_empty, Finset.filter_eq_empty_iff, or_comm]
  simp only [Finset.mem_range]

/-- Four active leaves with `servers` servers each, and one event of the first
application in which all of its four nodes send to each other. -/
def fourLeaves (servers : Nat) (h : 4 * servers < 2 ^ 31) : Topology := ⟨servers, 4, h⟩

def allToAll : AppEvents := fun app =>
  if app = 0 then [⟨1, 0, 0, List.replicate 4 (List.replicate 4 100)⟩] else []

theorem quorum_is_membership_fourLeaves :
    QuorumIsMembership (fourLeaves 8 (by decide)) allToAll (taskIdOf 0 ⟨1, 0, 0, []⟩) :=
  ((quorum_is_membership (fourLeaves 8 (by decide)) allToAll).1 _).mpr (Or.inr (by decide))

/-- With 16 servers on a leaf an application has eight logical nodes, but the
matrix only four, and the other four drop the task that waits for all eight. -/
theorem quorum_exceeds_membership :
    ∃ task ∈ getTasksForRank (fourLeaves 16 (by decide)) allToAll 0, task.groupSize = 8 ∧
      (members (fourLeaves 16 (by decide)) allToAll task.taskId).card = 4 := by
  refine ⟨taskOf (fourLeaves 16 (by decide)) 0 ⟨1, 0, 0, List.replicate 4 (List.replicate 4 100)⟩,
    ?_, rfl, by decide⟩
  exact List.mem_filter.mpr ⟨List.mem_singleton.mpr rfl, by decide⟩

end MoeJit.Spine8App
