import MoeJit.Lib.StdSort
import MoeJit.Moe.Task
import Mathlib.Data.Rat.Floor

/-!
# Centralized admission control

`CentralizedAdmissionScheduler` of `moe-jit.h`. A task becomes schedulable when
a quorum of ranks has reported it ready. `runScheduling` then looks for the
first window of consecutive slots in which the ledger has room for the task,
charges the window and fixes the time from which the task may run.

The ledger is the two vectors `m_globalCap` and `m_rankCap`, which are always
resized together, as one list of slots. A read outside it, undefined in the
source, makes the model return `none`. Every committed reservation is also
returned as a `Charge`, a record that no modelled function reads.
-/

namespace MoeJit.Centralized

open Words StdSort

/-! ## State -/

/-- `CentralizedAdmissionScheduler::TaskState`. -/
structure TaskState where
  taskId : TaskId
  /-- when each rank last reported ready -/
  readyTimes : AList fun _ : Rank => Rat := ∅
  /-- load of each rank, the larger of what it sends and receives -/
  b_ir : AList fun _ : Rank => Nat := ∅
  /-- global bottleneck load of the task -/
  d_i : Nat := 0
  t_seen : Rat
  scheduled : Bool := false
  allowedTime : Rat := -1
  b : Nat := 0
  span : Nat := 1
  groupSize : Nat := 0

/-- What the constructor fixes: slot length, horizon, quorum default and the
capacity of a slot, in bytes, overall and for one rank. -/
structure Config where
  deltaT : Rat
  horizon : Nat
  globalNodes : Nat
  rSlot : Nat
  globalLimit : Nat
  rankLimit : Nat
  deltaT_pos : 0 < deltaT
  horizon_lt : horizon + 20000 < 2 ^ 32
  rSlot_pos : 0 < rSlot
  rSlot_lt : rSlot < 2 ^ 32
  globalLimit_lt : globalLimit < 2 ^ 64
  rankLimit_lt : rankLimit < 2 ^ 64

/-- One slot of the ledger: its entries of `m_globalCap` and `m_rankCap`. -/
structure Slot where
  globalCap : Nat
  rankCap : AList fun _ : Rank => Nat := ∅

abbrev Ledger := List Slot

/-- The scheduler's run-time state. -/
structure State where
  pool : AList fun _ : TaskId => TaskState := ∅
  lastRunTime : Rat := -1
  ledger : Ledger

/-- A committed reservation: the loads as they were when it was charged, and
every subtraction made on the ledger as (minuend, subtrahend). -/
structure Charge where
  taskId : TaskId
  start : Nat
  span : Nat
  d_i : Nat
  b_ir : AList fun _ : Rank => Nat
  subtractions : List (Nat × Nat)

/-! ## Constructor -/

/-- The constructor, in exact arithmetic. -/
def construct (scaleFactor : Rat) (globalNodes : Nat) : Config :=
  let bNic := u64 ⌊100000000000 * scaleFactor⌋₊
  let deltaT : Rat := 10 / 1000000
  let totalCoreLinks : Rat := 16 * 4
  let perSlotPerLink : Rat := (bNic / 8) * deltaT
  let globalLimit := u64 ⌊perSlotPerLink * totalCoreLinks * (5 / 100)⌋₊
  let rankLimit := u64 ⌊(bNic / 8) * deltaT * (1 / 10)⌋₊
  let rSlot := u32 rankLimit
  { deltaT := deltaT
    horizon := 100000
    globalNodes := globalNodes
    rSlot := if rSlot = 0 then 1 else rSlot
    globalLimit := if globalLimit = 0 then 1 else globalLimit
    rankLimit := rankLimit
    deltaT_pos := by norm_num [deltaT]
    horizon_lt := by norm_num
    rSlot_pos := by split <;> omega
    rSlot_lt := by split <;> [norm_num; exact u32_lt _]
    globalLimit_lt := by split <;> [norm_num; exact u64_lt _]
    rankLimit_lt := u64_lt _ }

/-- The state after construction: `ResetCapacity` on `m_T + 20000` slots. -/
def State.init (cfg : Config) : State :=
  { ledger := List.replicate (cfg.horizon + 20000) { globalCap := cfg.globalLimit } }

/-! ## Slot search -/

/-- Slots a demand of `bytes` spans, in the source's word sizes. -/
def spanOf (cfg : Config) (bytes : Nat) : Nat :=
  let span := u32 (u64 (bytes + cfg.rSlot - 1) / cfg.rSlot)
  if span = 0 then 1 else span

/-- `m_rankCap[fut][r] = rankLimit` where there is no entry. -/
def ensureRank (rankLimit : Nat) (r : Rank) (caps : AList fun _ : Rank => Nat) :
    AList fun _ : Rank => Nat :=
  if r ∈ caps then caps else caps.insert r rankLimit

/-- The loop over `task.b_ir` of one slot: whether every rank has room, and the
rank capacities with the entries it created. -/
def checkRanks (rankLimit span : Nat) :
    List (Sigma fun _ : Rank => Nat) → (AList fun _ : Rank => Nat) →
      Bool × AList fun _ : Rank => Nat
  | [], caps => (true, caps)
  | kv :: rest, caps =>
    let caps := ensureRank rankLimit kv.1 caps
    if (caps.lookup kv.1).getD 0 < kv.2 / span then (false, caps)
    else checkRanks rankLimit span rest caps

/-- The loop over the slots `fut, fut + 1, ..` of a window, `n` of them left:
how far into them the first slot without room is, if there is one. The slot
index cannot wrap, because the ledger has less than `2 ^ 32` slots and a read
past its end comes first. -/
def checkWindow (cfg : Config) (d_i span : Nat) (b_ir : List (Sigma fun _ : Rank => Nat)) :
    Nat → Nat → Ledger → Option (Option Nat × Ledger)
  | 0, _, ledger => some (none, ledger)
  | n + 1, fut, ledger =>
    match ledger[fut]? with
    | none => none
    | some slot =>
      if slot.globalCap < d_i / span then some (some 0, ledger)
      else
        let (ok, caps) := checkRanks cfg.rankLimit span b_ir slot.rankCap
        let ledger := ledger.set fut { slot with rankCap := caps }
        if ok then
          (checkWindow cfg d_i span b_ir n (fut + 1) ledger).map fun
            (fail, ledger) => (fail.map (· + 1), ledger)
        else some (some 0, ledger)

/-- The search loop over the start slots `t < stop`. A window without room
moves `t` past the slot that failed. -/
def searchSlot (cfg : Config) (d_i span : Nat) (b_ir : List (Sigma fun _ : Rank => Nat))
    (stop t : Nat) (ledger : Ledger) : Option (Option Nat × Ledger) :=
  if t < stop then
    if ledger.length ≤ u32 (t + span) then some (none, ledger)
    else
      match checkWindow cfg d_i span b_ir span t ledger with
      | none => none
      | some (none, ledger) => some (some t, ledger)
      | some (some off, ledger) => searchSlot cfg d_i span b_ir stop (t + off + 1) ledger
  else some (none, ledger)
termination_by stop - t

/-! ## Commit -/

/-- The loop over `task.b_ir` that charges one slot. -/
def deductRanks (span : Nat) :
    List (Sigma fun _ : Rank => Nat) → (AList fun _ : Rank => Nat) →
      (AList fun _ : Rank => Nat) × List (Nat × Nat)
  | [], caps => (caps, [])
  | kv :: rest, caps =>
    let have_ := (caps.lookup kv.1).getD 0
    let (caps', subs) := deductRanks span rest (caps.insert kv.1 (sub64 have_ (kv.2 / span)))
    (caps', (have_, kv.2 / span) :: subs)

/-- The loop that charges the slots `fut, fut + 1, ..` of a window, `n` of them
left. -/
def commit (d_i span : Nat) (b_ir : List (Sigma fun _ : Rank => Nat)) :
    Nat → Nat → Ledger → Ledger × List (Nat × Nat)
  | 0, _, ledger => (ledger, [])
  | n + 1, fut, ledger =>
    match ledger[fut]? with
    | none => (ledger, [])
    | some slot =>
      let (caps, subs) := deductRanks span b_ir slot.rankCap
      let slot' := { globalCap := sub64 slot.globalCap (d_i / span), rankCap := caps }
      let (ledger', subs') := commit d_i span b_ir n (fut + 1) (ledger.set fut slot')
      (ledger', (slot.globalCap, d_i / span) :: subs ++ subs')

/-! ## RunScheduling -/

/-- `static_cast<uint32_t>(now / m_deltaT)`. -/
def currentSlotIdx (cfg : Config) (now : Rat) : Nat := u32 ⌊now / cfg.deltaT⌋₊

def searchHorizon (cfg : Config) (span : Nat) : Nat :=
  if span < cfg.horizon then cfg.horizon else u32 (span + 100)

/-- `resize` of both vectors when the search could leave them. -/
def grow (cfg : Config) (neededSize : Nat) (ledger : Ledger) : Ledger :=
  ledger ++ List.replicate (neededSize - ledger.length) { globalCap := cfg.globalLimit }

/-- The body of the loop over the pending tasks. -/
def scheduleTask (cfg : Config) (startSlot : Nat) (tid : TaskId) (st : State) :
    Option (State × List Charge) :=
  match st.pool.lookup tid with
  | none => some (st, [])
  | some task =>
    let span := spanOf cfg task.d_i
    let neededSize := u32 (startSlot + searchHorizon cfg span + span + 1000)
    let stop := u32 (startSlot + searchHorizon cfg span)
    match searchSlot cfg task.d_i span task.b_ir.entries stop startSlot
        (grow cfg neededSize st.ledger) with
    | none => none
    | some (none, ledger) =>
      some ({ st with pool := st.pool.insert tid { task with span := span }, ledger := ledger }, [])
    | some (some t, ledger) =>
      let (ledger, subs) := commit task.d_i span task.b_ir.entries span t ledger
      let task' := { task with span := span, scheduled := true, allowedTime := t * cfg.deltaT }
      some ({ st with pool := st.pool.insert tid task', ledger := ledger },
        [⟨tid, t, span, task.d_i, task.b_ir, subs⟩])

/-- The number of ready ranks a task waits for. -/
def targetQuorum (cfg : Config) (task : TaskState) : Nat :=
  if 0 < task.groupSize then task.groupSize else cfg.globalNodes

def quorumReady (cfg : Config) (task : TaskState) : Bool :=
  targetQuorum cfg task ≤ task.readyTimes.entries.length

/-- The tasks `RunScheduling` collects. -/
def pendingTasks (cfg : Config) (st : State) : List TaskId :=
  (st.pool.entries.filter fun kv => !kv.2.scheduled && quorumReady cfg kv.2).map (·.1)

/-- The comparator of the pending tasks: smaller `d_i` first, then the task seen
first. -/
def pendingLt (st : State) (a b : TaskId) : Prop :=
  ∃ x ∈ st.pool.lookup a, ∃ y ∈ st.pool.lookup b,
    if x.d_i ≠ y.d_i then x.d_i < y.d_i else x.t_seen < y.t_seen

/-- `RunScheduling` over the sorted pending tasks. -/
def runScheduling (cfg : Config) (now : Rat) : List TaskId → State → Option (State × List Charge)
  | [], st => some (st, [])
  | tid :: rest, st =>
    match scheduleTask cfg (currentSlotIdx cfg now) tid st with
    | none => none
    | some (st, charges) =>
      (runScheduling cfg now rest st).map fun (st, more) => (st, more ++ charges)

/-! ## CheckAdmission -/

/-- The load a rank reports: the larger of what it sends and what it receives
from others. -/
def localLoad (rank : Rank) (task : MoeTask) : Nat :=
  max (sumFlows task.sendFlows.entries)
    (sumFlows (task.expectedRecvFlows.entries.filter (·.1 ≠ rank)))

/-- The entry `m_pool[task.taskId]` after the first part of `CheckAdmission`:
created if the task is new, then updated with this rank's report. -/
def reportedTask (cfg : Config) (rank : Rank) (task : MoeTask) (now : Rat) (st : State) :
    TaskState :=
  let ts := (st.pool.lookup task.taskId).getD
    { taskId := task.taskId
      t_seen := now
      b := task.getTotalBytes
      span := spanOf cfg task.getTotalBytes
      groupSize := task.groupSize }
  { ts with
    readyTimes := ts.readyTimes.insert rank now
    b_ir := ts.b_ir.insert rank (localLoad rank task)
    d_i := max ts.d_i (localLoad rank task) }

def reportReady (cfg : Config) (rank : Rank) (task : MoeTask) (now : Rat) (st : State) : State :=
  { st with pool := st.pool.insert task.taskId (reportedTask cfg rank task now st) }

/-- The pacing of the ranks of a scheduled task. -/
def jitter (rank : Rank) : Rat := (rank % 32 : Nat) * (400 / 1000000)

/-- `CheckAdmission(rank, task)` at time `now`. `order` is what `std::sort` makes
of the pending tasks if this call runs the scheduling. -/
def checkAdmission (cfg : Config) (rank : Rank) (task : MoeTask) (now : Rat)
    (order : List TaskId) (st : State) : Option (State × Bool × List Charge) :=
  if now < task.startTime then some (st, false, [])
  else
    let ts := reportedTask cfg rank task now st
    let st := reportReady cfg rank task now st
    if ts.scheduled then some (st, decide (ts.allowedTime + jitter rank ≤ now), [])
    else if quorumReady cfg ts && decide (st.lastRunTime < now) then
      match runScheduling cfg now order st with
      | none => none
      | some (st, charges) =>
        let admitted := (st.pool.lookup task.taskId).any fun ts =>
          ts.scheduled && decide (ts.allowedTime ≤ now)
        some ({ st with lastRunTime := now }, admitted, charges)
    else some (st, false, [])

/-! ## Runs -/

/-- A state of a run: the scheduler, the reservations made so far and the time
of the last call. -/
structure World where
  state : State
  charges : List Charge
  clock : Rat

def World.init (cfg : Config) : World := ⟨State.init cfg, [], 0⟩

/-- The slot arithmetic of a scheduling pass stays in 32 bits. -/
def SlotsFit (cfg : Config) (now : Rat) (st : State) : Prop :=
  ∀ tid ∈ pendingTasks cfg st, ∀ task ∈ st.pool.lookup tid,
    let span := spanOf cfg task.d_i
    currentSlotIdx cfg now + (if span < cfg.horizon then cfg.horizon else span + 100) + span + 1000
      < 2 ^ 32

/-- What a call brings: time does not go back, and `order` is a sort of the
pending tasks. -/
structure Admissible (cfg : Config) (rank : Rank) (task : MoeTask) (now : Rat)
    (order : List TaskId) (w : World) : Prop where
  clock_le : w.clock ≤ now
  sorted : IsSortOf (pendingLt (reportReady cfg rank task now w.state))
    (pendingTasks cfg (reportReady cfg rank task now w.state)) order

/-- The states of the runs of `CheckAdmission` calls from a new scheduler. -/
inductive Reachable (cfg : Config) : World → Prop
  | init : Reachable cfg (World.init cfg)
  | call {w : World} {rank : Rank} {task : MoeTask} {now : Rat} {order : List TaskId}
      {st : State} {ret : Bool} {charges : List Charge} :
      Reachable cfg w → Admissible cfg rank task now order w →
      checkAdmission cfg rank task now order w.state = some (st, ret, charges) →
      Reachable cfg ⟨st, charges ++ w.charges, now⟩

end MoeJit.Centralized
