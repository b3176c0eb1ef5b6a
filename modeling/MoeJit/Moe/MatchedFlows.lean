import MoeJit.Lib.AssocMap
import MoeJit.Moe.Spine8App

/-!
# Matched flows

The two sides of a flow are written into two tasks by two loops that run at two
servers. `matched_flows` says that they agree: what a server sends to another is
what the other expects from it, task by task, and both belong to one application.
It holds for the task lists of `spine-8app.cpp`, whose loops check the bounds of the
matrices, and for those of `spine-leaf-trace-test.cpp`, whose loops do not.
-/

open MoeJit

variable {task : MoeTask} {tasks tasks' : List MoeTask} {flows : MoeTask → FlowMap}
  {scaled : List MoeGlobalEvent}

namespace MoeJit.Spine8App

open Words AssocMap

/-! ## 1. One loop over the nodes -/

/-- The volume of a flow that is kept. -/
def volumeOf (entry : Option Nat) : Option Nat :=
  entry.bind fun volume => if 0 < volume / 10 then some (volume / 10) else none

theorem fillFlows_eq (count : Nat) (entry : Nat → Option Nat) (physical : Nat → Rank) :
    fillFlows count entry physical =
      insertAll (List.range count) physical fun node => volumeOf (entry node) := by
  rw [fillFlows, insertAll]
  congr 1
  funext flows node
  cases entry node with
  | none => rfl
  | some volume =>
    simp only [volumeOf, Option.bind_some]
    split <;> rfl

/-! ## 2. The task of one event -/

variable {topo : Topology} {r s : Rank} {ev : MoeGlobalEvent}

/-- A server that runs one of the applications. -/
def RunsApp (topo : Topology) (r : Rank) : Prop := r < topo.activeNodes ∧ topo.appId r < 8

/-- Another server of the same application. -/
def SameApp (topo : Topology) (r s : Rank) : Prop :=
  s < topo.activeNodes ∧ topo.appId s = topo.appId r

instance (topo : Topology) (r s : Rank) : Decidable (SameApp topo r s) :=
  inferInstanceAs (Decidable (_ ∧ _))

/-- The flows of an event between a server and the nodes of its application. -/
theorem lookup_flows (hr : RunsApp topo r) (entry : Nat → Option Nat) (s : Rank) :
    (fillFlows topo.logicalNodeCount entry
        fun node => topo.physicalRank node (topo.appId r)).lookup s =
      if SameApp topo r s then volumeOf (entry (topo.logicalRank s)) else none := by
  have happ := Topology.appId_lt hr.1 hr.2
  rw [fillFlows_eq]
  obtain ⟨hhere, helse⟩ := lookup_insertAll (List.range topo.logicalNodeCount)
    (fun node => topo.physicalRank node (topo.appId r)) (fun node => volumeOf (entry node))
    fun i _ j _ hij => by
      rw [← Topology.logicalRank_physicalRank i happ, ← Topology.logicalRank_physicalRank j happ]
      exact congrArg topo.logicalRank hij
  split
  · rename_i hs
    have hnode := Topology.logicalRank_lt hs.1
    rw [← hhere _ (List.mem_range.mpr hnode), ← hs.2, topo.physicalRank_logicalRank]
  · rename_i hs
    refine helse s fun i hi heq => hs ?_
    rw [← heq]
    exact ⟨Topology.physicalRank_lt i happ (List.mem_range.mp hi), Topology.appId_physicalRank i happ⟩

theorem sendFlows_lookup (hr : RunsApp topo r) (s : Rank) :
    (taskOf topo r ev).sendFlows.lookup s = if SameApp topo r s then
      volumeOf (trafficEntry ev (topo.logicalRank r) (topo.logicalRank s)) else none :=
  lookup_flows hr (fun dst => trafficEntry ev (topo.logicalRank r) dst) s

theorem expectedRecvFlows_lookup (hr : RunsApp topo r) (s : Rank) :
    (taskOf topo r ev).expectedRecvFlows.lookup s = if SameApp topo r s then
      volumeOf (trafficEntry ev (topo.logicalRank s) (topo.logicalRank r)) else none :=
  lookup_flows hr (fun src => trafficEntry ev src (topo.logicalRank r)) s

theorem hasFlows_of_lookup {v : Nat}
    (h : task.sendFlows.lookup s = some v ∨ task.expectedRecvFlows.lookup s = some v) :
    hasFlows task = true := by
  have hne : ∀ m : FlowMap, m.lookup s = some v → m.entries.isEmpty = false := fun m hm => by
    cases hentries : m.entries with
    | nil =>
      rw [AList.lookup, hentries] at hm
      cases hm
    | cons => rfl
  rw [hasFlows]
  cases h with
  | inl h => rw [hne _ h]; rfl
  | inr h => rw [hne _ h, Bool.or_comm]; rfl

/-! ## 3. Task lists -/

variable {events : AppEvents} {t : TaskId} {v : Nat}

/-- The volumes of a flow to or from `s` in the tasks with id `t`, in the order of
the list. -/
def volumes (tasks : List MoeTask) (t : TaskId) (flows : MoeTask → FlowMap) (s : Rank) : List Nat :=
  (tasks.filter fun task => task.taskId = t).filterMap fun task => (flows task).lookup s

theorem mem_volumes :
    v ∈ volumes tasks t flows s ↔ ∃ task ∈ tasks, task.taskId = t ∧ (flows task).lookup s = some v := by
  simp only [volumes, List.mem_filterMap, List.mem_filter, decide_eq_true_eq, and_assoc]

theorem volumes_filter (evs : List MoeGlobalEvent) (r : Rank)
    (hkept : ∀ ev ∈ evs, ∀ v, (flows (taskOf topo r ev)).lookup s = some v →
      hasFlows (taskOf topo r ev) = true) :
    volumes ((evs.map (taskOf topo r)).filter hasFlows) t flows s =
      evs.filterMap fun ev =>
        if taskIdOf (topo.appId r) ev = t then (flows (taskOf topo r ev)).lookup s else none := by
  induction evs with
  | nil => rfl
  | cons ev evs ih =>
    have hrest := ih fun ev' hev' => hkept ev' (List.mem_cons_of_mem _ hev')
    have hhere := hkept ev List.mem_cons_self
    rw [List.map_cons, List.filter_cons, List.filterMap_cons, ← hrest]
    by_cases hid : taskIdOf (topo.appId r) ev = t
    · have hid' : (taskOf topo r ev).taskId = t := hid
      rw [if_pos hid]
      cases hlookup : (flows (taskOf topo r ev)).lookup s with
      | none =>
        split
        · simp [volumes, hid', hlookup]
        · rfl
      | some v =>
        rw [if_pos (hhere v hlookup)]
        simp [volumes, hid', hlookup]
    · have hid' : ¬ (taskOf topo r ev).taskId = t := hid
      rw [if_neg hid]
      split
      · simp [volumes, hid']
      · rfl

theorem getTasksForRank_of_not_runsApp (hr : ¬ RunsApp topo r) :
    getTasksForRank topo events r = [] := by
  rw [getTasksForRank]
  split
  · rfl
  · rename_i hactive
    have happ : ¬ topo.appId r < 8 := fun happ => hr ⟨not_le.mp hactive, happ⟩
    rw [currentEvents, dif_neg happ]
    rfl

theorem volumes_getTasksForRank (hr : RunsApp topo r)
    (hkept : ∀ ev v, (flows (taskOf topo r ev)).lookup s = some v →
      hasFlows (taskOf topo r ev) = true) :
    volumes (getTasksForRank topo events r) t flows s =
      (currentEvents events (topo.appId r)).filterMap fun ev =>
        if taskIdOf (topo.appId r) ev = t then (flows (taskOf topo r ev)).lookup s else none := by
  rw [getTasksForRank, if_neg (not_le.mpr hr.1)]
  exact volumes_filter _ r fun ev _ => hkept ev

theorem volumes_eq_nil (hr : RunsApp topo r) (hs : ¬ SameApp topo r s) :
    volumes (getTasksForRank topo events r) t MoeTask.sendFlows s = [] ∧
    volumes (getTasksForRank topo events r) t MoeTask.expectedRecvFlows s = [] := by
  rw [volumes_getTasksForRank hr fun ev v h => hasFlows_of_lookup (.inl h),
    volumes_getTasksForRank hr fun ev v h => hasFlows_of_lookup (.inr h)]
  simp only [sendFlows_lookup hr, expectedRecvFlows_lookup hr, if_neg hs, ite_self]
  exact ⟨List.filterMap_none _, List.filterMap_none _⟩

theorem volumes_agree (topo : Topology) (events : AppEvents) (r s : Rank) (t : TaskId) :
    volumes (getTasksForRank topo events r) t MoeTask.sendFlows s =
      volumes (getTasksForRank topo events s) t MoeTask.expectedRecvFlows r := by
  by_cases hr : RunsApp topo r
  · by_cases hs : SameApp topo r s
    · -- one application: the same events, and the same entry of each matrix
      have hs' : RunsApp topo s := ⟨hs.1, hs.2 ▸ hr.2⟩
      have hback : SameApp topo s r := ⟨hr.1, hs.2.symm⟩
      rw [volumes_getTasksForRank hr fun ev v h => hasFlows_of_lookup (.inl h),
        volumes_getTasksForRank hs' fun ev v h => hasFlows_of_lookup (.inr h)]
      simp only [sendFlows_lookup hr, expectedRecvFlows_lookup hs', if_pos hs, if_pos hback, hs.2]
    · rw [(volumes_eq_nil hr hs).1]
      by_cases hs' : RunsApp topo s
      · exact (volumes_eq_nil hs' fun hback => hs ⟨hs'.1, hback.2.symm⟩).2.symm
      · rw [getTasksForRank_of_not_runsApp hs']
        rfl
  · rw [getTasksForRank_of_not_runsApp hr]
    by_cases hs' : RunsApp topo s
    · exact (volumes_eq_nil hs' fun hback => hr ⟨hback.1, hback.2 ▸ hs'.2⟩).2.symm
    · rw [getTasksForRank_of_not_runsApp hs']
      rfl

theorem sameApp_of_flow (htask : task ∈ getTasksForRank topo events r)
    (h : task.sendFlows.lookup s = some v ∨ task.expectedRecvFlows.lookup s = some v) :
    SameApp topo r s := by
  by_cases hr : RunsApp topo r
  · by_contra hs
    obtain ⟨hsend, hrecv⟩ := volumes_eq_nil (t := task.taskId) hr hs
    cases h with
    | inl h =>
      have hmem := mem_volumes.mpr ⟨task, htask, rfl, h⟩
      rw [hsend] at hmem
      cases hmem
    | inr h =>
      have hmem := mem_volumes.mpr ⟨task, htask, rfl, h⟩
      rw [hrecv] at hmem
      cases hmem
  · rw [getTasksForRank_of_not_runsApp hr] at htask
    cases htask

end MoeJit.Spine8App

namespace MoeJit.SpineLeafTrace

open Words AssocMap Spine8App

/-! ## 4. Task lists without bounds checks -/

/-- `gev.traffic_matrix[src][dst]`, without a value outside of the matrix. -/
def trafficEntry (ev : MoeGlobalEvent) (src dst : Nat) : Option Nat :=
  (ev.trafficMatrix[src]?).bind fun row => row[dst]?

/-- One loop over the nodes. -/
def fillFlows (numNodes : Nat) (entry : Nat → Option Nat) : Option FlowMap :=
  (List.range numNodes).foldlM (fun flows node =>
    (entry node).map fun bytes => if 0 < bytes then flows.insert node bytes else flows) ∅

/-- The task a server makes of an event. -/
def taskOf (numNodes : Nat) (rank : Rank) (ev : MoeGlobalEvent) : Option MoeTask :=
  (fillFlows numNodes fun dst => trafficEntry ev rank dst).bind fun sendFlows =>
    (fillFlows numNodes fun src => trafficEntry ev src rank).map fun expectedRecvFlows =>
      { taskId := u32 ev.globalId
        startTime := ev.startTime
        sendFlows := sendFlows
        expectedRecvFlows := expectedRecvFlows
        computationTime := ev.computationDelay }

/-- `GetTasksForRank` of `spine-leaf-trace-test.cpp`, without a result where it reads
outside of a matrix. -/
def getTasksForRank (scaled : List MoeGlobalEvent) (numNodes : Nat) (rank : Rank) :
    Option (List MoeTask) :=
  if numNodes ≤ rank then some [] else scaled.mapM (taskOf numNodes rank)

/-- The volume of a flow that is kept. -/
def volumeOf (entry : Option Nat) : Option Nat :=
  entry.bind fun bytes => if 0 < bytes then some bytes else none

theorem lookup_fillFlows {numNodes : Nat} {entry : Nat → Option Nat} {flows : FlowMap}
    (h : fillFlows numNodes entry = some flows) (s : Rank) :
    flows.lookup s = if s < numNodes then volumeOf (entry s) else none := by
  have hloop : ∀ (l : List Nat) (m flows : FlowMap),
      l.foldlM (fun flows node =>
        (entry node).map fun bytes => if 0 < bytes then flows.insert node bytes else flows) m =
          some flows →
      flows = l.foldl (fun m c => (volumeOf (entry c)).elim m fun v => m.insert c v) m := by
    intro l
    induction l with
    | nil =>
      intro m flows hfold
      cases hfold
      rfl
    | cons node l ih =>
      intro m flows hfold
      rw [List.foldlM_cons] at hfold
      cases hentry : entry node with
      | none =>
        rw [hentry] at hfold
        cases hfold
      | some bytes =>
        rw [hentry] at hfold
        rw [ih _ _ hfold, List.foldl_cons, hentry]
        congr 1
        simp only [volumeOf, Option.bind_some]
        split <;> rfl
  obtain ⟨hhere, helse⟩ := lookup_insertAll (List.range numNodes) (fun node => node)
    (fun node => volumeOf (entry node)) fun _ _ _ _ heq => heq
  rw [hloop _ _ _ h]
  split
  · rename_i hs
    exact hhere s (List.mem_range.mpr hs)
  · rename_i hs
    exact helse s fun c hc heq => hs (heq ▸ List.mem_range.mp hc)

variable {numNodes : Nat} {r s : Rank} {t : TaskId}

theorem lookup_taskOf {ev : MoeGlobalEvent} (h : taskOf numNodes r ev = some task) :
    task.taskId = u32 ev.globalId ∧
    (∀ s, task.sendFlows.lookup s = if s < numNodes then volumeOf (trafficEntry ev r s) else none) ∧
    ∀ s, task.expectedRecvFlows.lookup s =
      if s < numNodes then volumeOf (trafficEntry ev s r) else none := by
  simp only [taskOf, Option.bind_eq_some_iff, Option.map_eq_some_iff] at h
  obtain ⟨sendFlows, hsend, recvFlows, hrecv, rfl⟩ := h
  exact ⟨rfl, lookup_fillFlows hsend, lookup_fillFlows hrecv⟩

theorem volumes_eq_nil (h : scaled.mapM (taskOf numNodes r) = some tasks) (hs : ¬ s < numNodes) :
    volumes tasks t MoeTask.sendFlows s = [] ∧
    volumes tasks t MoeTask.expectedRecvFlows s = [] := by
  induction scaled generalizing tasks with
  | nil =>
    cases h
    exact ⟨rfl, rfl⟩
  | cons ev scaled ih =>
    simp only [List.mapM_cons, Option.bind_eq_bind, Option.bind_eq_some_iff] at h
    obtain ⟨task, htask, rest, hrest, heq⟩ := h
    cases heq
    obtain ⟨hsend, hrecv⟩ := ih hrest
    obtain ⟨-, hs₁, hs₂⟩ := lookup_taskOf htask
    constructor
    · rw [← hsend, volumes, volumes, List.filter_cons]
      split
      · rw [List.filterMap_cons, hs₁, if_neg hs]
      · rfl
    · rw [← hrecv, volumes, volumes, List.filter_cons]
      split
      · rw [List.filterMap_cons, hs₂, if_neg hs]
      · rfl

/-- Two servers within the range make the same list of volumes of each event. -/
theorem volumes_mapM (hr : r < numNodes) (hs : s < numNodes)
    (h : scaled.mapM (taskOf numNodes r) = some tasks)
    (h' : scaled.mapM (taskOf numNodes s) = some tasks') :
    volumes tasks t MoeTask.sendFlows s = volumes tasks' t MoeTask.expectedRecvFlows r := by
  induction scaled generalizing tasks tasks' with
  | nil =>
    cases h
    cases h'
    rfl
  | cons ev scaled ih =>
    simp only [List.mapM_cons, Option.bind_eq_bind, Option.bind_eq_some_iff] at h h'
    obtain ⟨task, htask, rest, hrest, heq⟩ := h
    obtain ⟨task', htask', rest', hrest', heq'⟩ := h'
    cases heq
    cases heq'
    obtain ⟨hid, hsend, -⟩ := lookup_taskOf htask
    obtain ⟨hid', -, hrecv⟩ := lookup_taskOf htask'
    have hvolumes := ih hrest hrest'
    rw [volumes, volumes] at hvolumes
    rw [volumes, volumes, List.filter_cons, List.filter_cons, hid, hid']
    split
    · rw [List.filterMap_cons, List.filterMap_cons, hsend, hrecv, if_pos hr, if_pos hs, hvolumes]
    · exact hvolumes

theorem volumes_agree (h : getTasksForRank scaled numNodes r = some tasks)
    (h' : getTasksForRank scaled numNodes s = some tasks') (t : TaskId) :
    volumes tasks t MoeTask.sendFlows s = volumes tasks' t MoeTask.expectedRecvFlows r := by
  rw [getTasksForRank] at h h'
  split at h
  · rename_i hr
    cases h
    split at h'
    · cases h'
      rfl
    · exact (volumes_eq_nil h' (not_lt.mpr hr)).2.symm
  · rename_i hr
    split at h'
    · rename_i hs
      cases h'
      exact (volumes_eq_nil h (not_lt.mpr hs)).1
    · rename_i hs
      exact volumes_mapM (not_le.mp hr) (not_le.mp hs) h h'

theorem lt_of_flow (h : getTasksForRank scaled numNodes r = some tasks) (htask : task ∈ tasks)
    {v : Nat} (hflow : task.sendFlows.lookup s = some v ∨ task.expectedRecvFlows.lookup s = some v)
    : s < numNodes := by
  by_contra hs
  rw [getTasksForRank] at h
  split at h
  · cases h
    cases htask
  · obtain ⟨hsend, hrecv⟩ := volumes_eq_nil (t := task.taskId) h hs
    cases hflow with
    | inl hflow =>
      have hmem := mem_volumes.mpr ⟨task, htask, rfl, hflow⟩
      rw [hsend] at hmem
      cases hmem
    | inr hflow =>
      have hmem := mem_volumes.mpr ⟨task, htask, rfl, hflow⟩
      rw [hrecv] at hmem
      cases hmem

end MoeJit.SpineLeafTrace

namespace MoeJit

open Spine8App

/-! ## 5. Both scenarios -/

/-- The flows of two task lists match: what the first server sends to the second is what
the second expects, in the tasks of every id, one after the other. -/
def Matched (tasks tasks' : List MoeTask) (r s : Rank) : Prop :=
  ∀ t, volumes tasks t MoeTask.sendFlows s = volumes tasks' t MoeTask.expectedRecvFlows r ∧
    ∀ v, (∃ task ∈ tasks, task.taskId = t ∧ task.sendFlows.lookup s = some v) ↔
      ∃ task ∈ tasks', task.taskId = t ∧ task.expectedRecvFlows.lookup r = some v

theorem matched_of_volumes {r s : Rank}
    (h : ∀ t, volumes tasks t MoeTask.sendFlows s = volumes tasks' t MoeTask.expectedRecvFlows r) :
    Matched tasks tasks' r s := fun t =>
  ⟨h t, fun v => by rw [← mem_volumes, ← mem_volumes, h t]⟩

/-- The flows of all servers match and none leaves its application, in the scenario of eight
applications for all events and in the scenario of one application wherever the matrices
have the entries that are read. -/
theorem matched_flows :
    (∀ (topo : Topology) (events : AppEvents) (r s : Rank),
      Matched (getTasksForRank topo events r) (getTasksForRank topo events s) r s ∧
      ∀ task ∈ getTasksForRank topo events r, ∀ v,
        task.sendFlows.lookup s = some v ∨ task.expectedRecvFlows.lookup s = some v →
          s < topo.activeNodes ∧ topo.appId s = topo.appId r) ∧
    ∀ (scaled : List MoeGlobalEvent) (numNodes : Nat) (r s : Rank) (tasks tasks' : List MoeTask),
      SpineLeafTrace.getTasksForRank scaled numNodes r = some tasks →
      SpineLeafTrace.getTasksForRank scaled numNodes s = some tasks' →
        Matched tasks tasks' r s ∧
        ∀ task ∈ tasks, ∀ v,
          task.sendFlows.lookup s = some v ∨ task.expectedRecvFlows.lookup s = some v →
            s < numNodes := by
  refine ⟨fun topo events r s => ⟨matched_of_volumes (volumes_agree topo events r s),
    fun task htask v hflow => sameApp_of_flow htask hflow⟩, fun scaled numNodes r s tasks tasks' h h' =>
    ⟨matched_of_volumes (SpineLeafTrace.volumes_agree h h'),
      fun task htask v hflow => SpineLeafTrace.lt_of_flow h htask hflow⟩⟩

/-- Two servers of one application that exchange 70 and 30 bytes. -/
def exchange : MoeGlobalEvent := ⟨1, 0, 0, [[0, 70], [30, 0]]⟩

theorem matched_flows_exchange :
    ∃ tasks tasks', SpineLeafTrace.getTasksForRank [exchange] 2 0 = some tasks ∧
      SpineLeafTrace.getTasksForRank [exchange] 2 1 = some tasks' ∧ Matched tasks tasks' 0 1 :=
  ⟨_, _, rfl, rfl, (matched_flows.2 [exchange] 2 0 1 _ _ rfl rfl).1⟩

end MoeJit
