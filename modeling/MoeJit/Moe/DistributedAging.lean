import MoeJit.Lib.AssocMap
import MoeJit.Lib.FirstFit
import MoeJit.Lib.StdSort
import MoeJit.Moe.Task
import Mathlib.Data.Rat.Floor
import Mathlib.Data.List.FinRange

/-!
# Distributed admission control with aging

`DistributedAgingScheduler` of `moe-fifo-scheduler.h`. Each leaf has a broker.
A source leaf keeps the capacity of its own slots (`srcFree`) and the quota that
the destination leaves have granted it (`grantedQuota`); a destination leaf
keeps what it has left to grant (`dstFree`). `onEpochTimer` collects requests,
lets every destination grant quota and then runs `fastControlPath`, which
commits events to windows of slots where both the source and the quota have
room. A new event runs `fastControlPath` too.

Times are nanoseconds, priorities exact rationals in place of `double`. The
order in which a map is walked matters to no modelled function. Log output is
left out.
-/

namespace MoeJit.DistributedAging

open Words StdSort AssocMap FirstFit

/-! ## State -/

/-- `uint64_t` slot numbers. -/
abbrev Slot := Nat

/-- `uint32_t` leaf numbers. -/
abbrev Leaf := Nat

/-- `uint64_t` event identifiers. -/
abbrev EventId := Nat

/-- `ns3::Time`, in nanoseconds. -/
abbrev Time := Int

inductive Mode
  | aging
  | fifo
  | sjf
  | srpt

/-- A `std::unordered_map<uint64_t, uint32_t>` of free capacity. `wrapped`
records whether a subtraction was ever larger than what was free; no modelled
function reads it. -/
structure Dict where
  val : Slot → Option Nat := fun _ => none
  wrapped : Bool := false

/-- `GetFree`. -/
def getFree (dict : Dict) (s : Slot) (cap : Nat) : Nat := (dict.val s).getD cap

/-- `SetFree(dict, s, GetFree(dict, s, cap) - amount)`. -/
def takeFree (dict : Dict) (s : Slot) (cap amount : Nat) : Dict where
  val := Function.update dict.val s (some (sub32 (getFree dict s cap) amount))
  wrapped := dict.wrapped || decide (getFree dict s cap < amount)

/-- No slot, `0xFFFFFFFFFFFFFFFF`. -/
def noSlot : Slot := 2 ^ 64 - 1

/-- `LocalEvent`. `start` and `requests` are records that no modelled function
reads: the slot the event was committed to, which the source keeps only in
`releaseTime`, and the number of epochs in which it was eligible. -/
structure LocalEvent where
  eventId : EventId
  rank : Rank
  taskId : TaskId
  tPred : Time
  b : Nat
  span : Nat
  readySlot : Slot
  bytesByLeaf : AList fun _ : Leaf => Nat
  foot : AList fun _ : Leaf => Nat
  age : Nat := 0
  wasEligible : Bool := false
  prio : Rat := 0
  releaseTime : Time := -1000000000
  committed : Bool := false
  earliestSlot : Slot := noSlot
  start : Option Slot := none
  requests : Nat := 0

/-- `LeafBroker`; `LocalEvent`s are stored under their `eventId`. -/
structure LeafBroker where
  srcFree : Dict := {}
  dstFree : Dict := {}
  localEvents : AList fun _ : EventId => LocalEvent := ∅
  grantedQuota : Leaf → Dict := fun _ => {}
  grantedPhase : Leaf → Slot → Option Time := fun _ _ => none
  nextPhase : Slot → Option Time := fun _ => none

def slotLength : Time := 10000

def epochLength : Time := 1000000

/-- `m_Helig`. -/
def hElig : Time := 100000000

/-- `m_Wsearch`. -/
def wSearch : Nat := 1000

/-- `m_alphaAge`. -/
def alphaAge : Rat := 3 / 2

def phaseGap : Time := 10000

def localGap : Time := 20000

/-- What the constructor fixes. -/
structure Config where
  k : Nat
  numLeafs : Nat
  mode : Mode
  rSlot : Nat
  capacityPerSlot : Nat
  k_pos : 0 < k
  rSlot_pos : 0 < rSlot
  capacityPerSlot_pos : 0 < capacityPerSlot
  capacityPerSlot_lt : capacityPerSlot < 2 ^ 32

/-- The constructor, in exact arithmetic. -/
def construct (k : Nat) (k_pos : 0 < k) (numLeafs : Nat) (mode : Mode) (scaleFactor : Rat) :
    Config :=
  let rSlot := u32 ⌊100000 * scaleFactor⌋₊
  let capacityPerSlot := u32 ⌊125000 * scaleFactor * k⌋₊
  { k := k
    numLeafs := numLeafs
    mode := mode
    rSlot := if rSlot = 0 then 1 else rSlot
    capacityPerSlot := if capacityPerSlot = 0 then 1 else capacityPerSlot
    k_pos := k_pos
    rSlot_pos := by split <;> omega
    capacityPerSlot_pos := by split <;> omega
    capacityPerSlot_lt := by split <;> [decide; exact u32_lt _] }

/-- The run-time state. `timer` is when the epoch timer goes off next, once it
has been started. -/
structure State (n : Nat) where
  brokers : Fin n → LeafBroker := fun _ => {}
  timer : Option Time := none

/-! ## Events -/

/-- `llround`. -/
def llround (x : Rat) : Int := if 0 ≤ x then ⌊x + 1 / 2⌋ else ⌈x - 1 / 2⌉

/-- The slot of a time, as `uint64_t`. -/
def slotOf (t : Time) : Slot := (t.tdiv slotLength % 2 ^ 64).toNat

/-- `e.prio` for an eligible event; `alpha` is the weight of its age. -/
def priority (cfg : Config) (alpha : Rat) (e : LocalEvent) : Rat :=
  match cfg.mode with
  | .aging => e.b / (1 + alpha * e.age)
  | .fifo => e.tPred
  | .sjf => e.b
  | .srpt =>
    let dispatched : Rat := e.age * cfg.capacityPerSlot
    if dispatched < e.b then e.b - dispatched else 1

def eligible (now : Time) (e : LocalEvent) : Bool :=
  !e.committed && decide (e.tPred - now ≤ hElig)

/-- The comparator of the eligible events: smaller `prio` first, then smaller
`tPred`. -/
def EventLess (a b : LocalEvent) : Prop :=
  if a.prio ≠ b.prio then a.prio < b.prio else a.tPred < b.tPred

instance : DecidableRel EventLess := fun a b =>
  inferInstanceAs (Decidable (if a.prio ≠ b.prio then a.prio < b.prio else a.tPred < b.tPred))

/-- Of two events the one with the smaller priority, or else with the smaller
predicted time, is not the later one. -/
theorem not_eventLess {a b : LocalEvent} :
    ¬ EventLess b a ↔ a.prio < b.prio ∨ (a.prio = b.prio ∧ a.tPred ≤ b.tPred) := by
  unfold EventLess
  split
  · next hne =>
    rw [not_lt]
    exact ⟨fun h => .inl (lt_of_le_of_ne h (Ne.symm hne)), fun h =>
      h.elim le_of_lt fun h => absurd h.1.symm hne⟩
  · next heq =>
    have heq' : b.prio = a.prio := not_not.mp heq
    rw [not_lt, heq']
    simp

instance : Std.Total fun a b : LocalEvent => ¬ EventLess b a where
  total a b := by
    simp only [not_eventLess]
    rcases lt_trichotomy a.prio b.prio with h | h | h
    · exact .inl (.inl h)
    · exact (le_total a.tPred b.tPred).imp (fun ht => .inr ⟨h, ht⟩) fun ht => .inr ⟨h.symm, ht⟩
    · exact .inr (.inl h)

instance : IsTrans LocalEvent fun a b => ¬ EventLess b a where
  trans a b c := by
    simp only [not_eventLess]
    rintro (h | ⟨h, ht⟩) (h' | ⟨h', ht'⟩)
    · exact .inl (h.trans h')
    · exact .inl (h' ▸ h)
    · exact .inl (h ▸ h')
    · exact .inr ⟨h.trans h', ht.trans ht'⟩

/-- The bytes an event sends, by destination leaf. -/
def bytesByLeafOf (cfg : Config) (task : MoeTask) : AList fun _ : Leaf => Nat :=
  task.sendFlows.entries.foldl (fun bytes kv =>
    let destLeaf := u32 (kv.1 / cfg.k)
    bytes.insert destLeaf (u32 ((bytes.lookup destLeaf).getD 0 + kv.2))) ∅

/-- The event of a task that a rank reports for the first time. -/
def newEvent (cfg : Config) (eId : EventId) (rank : Rank) (task : MoeTask) (now : Time) :
    LocalEvent :=
  let tPred := llround (task.startTime * 1000000000)
  let b := task.sendFlows.entries.foldl (fun b kv => u32 (b + kv.2)) 0
  let span := u32 (b + cfg.rSlot - 1) / cfg.rSlot
  let span := if span = 0 then 1 else span
  let bytesByLeaf := bytesByLeafOf cfg task
  { eventId := eId
    rank := rank
    taskId := task.taskId
    tPred := tPred
    b := b
    span := span
    readySlot := max (slotOf now) (slotOf tPred)
    bytesByLeaf := bytesByLeaf
    foot := mapVal (fun _ bytes => bytes / span) bytesByLeaf
    prio := match cfg.mode with
      | .fifo => tPred
      | _ => b }

/-- The slots of a window of an event. -/
def LocalEvent.window (e : LocalEvent) (s : Slot) : List Slot :=
  FirstFit.window s (u64 (s + e.span))

/-- `e->b / e->span`. -/
def LocalEvent.srcReq (e : LocalEvent) : Nat := e.b / e.span

namespace LeafBroker

def events (lb : LeafBroker) : List LocalEvent := lb.localEvents.entries.map (·.2)

/-- A change of one event in place. -/
def modify (lb : LeafBroker) (eId : EventId) (f : LocalEvent → LocalEvent) : LeafBroker :=
  { lb with localEvents := mapVal (fun id e => if id = eId then f e else e) lb.localEvents }

/-- A change of every event in place. -/
def modifyAll (lb : LeafBroker) (f : LocalEvent → LocalEvent) : LeafBroker :=
  { lb with localEvents := mapVal (fun _ e => f e) lb.localEvents }

end LeafBroker

/-! ## FastControlPath -/

section

variable (cfg : Config) (sort : Sorter EventLess)

/-- Slot `u` has room for an event: at the source, and in the quota of each of
its destinations. -/
def hasRoom (lb : LeafBroker) (e : LocalEvent) (u : Slot) : Bool :=
  decide (e.srcReq ≤ getFree lb.srcFree u cfg.capacityPerSlot) &&
    e.foot.entries.all fun kv => decide (kv.2 ≤ getFree (lb.grantedQuota kv.1) u 0)

/-- The loop over the start slots. -/
def findSlot (currentSlot : Slot) (lb : LeafBroker) (e : LocalEvent) : Option Slot :=
  let base := max e.readySlot currentSlot
  let base := if e.earliestSlot ≠ noSlot ∧ base < e.earliestSlot then e.earliestSlot else base
  search (hasRoom cfg lb e) (fun s => u64 (s + e.span)) (u64 (base + wSearch)) base

/-- The charge of one slot of a window. -/
def reserveSlot (e : LocalEvent) (lb : LeafBroker) (u : Slot) : LeafBroker :=
  { lb with
    srcFree := takeFree lb.srcFree u cfg.capacityPerSlot e.srcReq
    grantedQuota := e.foot.entries.foldl (fun quota kv =>
      Function.update quota kv.1 (takeFree (quota kv.1) u 0 kv.2)) lb.grantedQuota }

/-- The body of the loop over the eligible events. `buckets` holds the events
that have found a slot, with their slots, in the order they were put there. -/
def placeEvent (currentSlot : Slot) (st : LeafBroker × List (Slot × LocalEvent))
    (e : LocalEvent) : LeafBroker × List (Slot × LocalEvent) :=
  let (lb, buckets) := st
  match findSlot cfg currentSlot lb e with
  | none => (lb, buckets)
  | some s =>
    (((e.window s).foldl (reserveSlot cfg e) lb).modify e.eventId fun e' =>
      { e' with start := some s }, buckets ++ [(s, e)])

/-- The release time of the `k`-th event of the bucket of slot `s`. -/
def releaseTimeOf (lb : LeafBroker) (s : Slot) (k : Nat) (e : LocalEvent) : Time :=
  let localOffset := 50000 + k * localGap
  let destPhaseTime := e.foot.entries.foldl (fun time kv =>
    match lb.grantedPhase kv.1 s with
    | none => time
    | some phase => if time < phase then phase else time) 0
  let slotStartTime := i64 (s * slotLength.toNat)
  let releaseT := e.tPred
  let releaseT := if releaseT < slotStartTime + localOffset then slotStartTime + localOffset
    else releaseT
  if releaseT < slotStartTime + destPhaseTime then slotStartTime + destPhaseTime else releaseT

/-- The loop over the buckets: the events to commit, with their release times. -/
def commits (lb : LeafBroker) (buckets : List (Slot × LocalEvent)) : List (EventId × Time) :=
  (buckets.map (·.1)).dedup.flatMap fun s =>
    (sort.run ((buckets.filter (·.1 = s)).map (·.2))).zipIdx.map fun p =>
      (p.1.eventId, releaseTimeOf lb s p.2 p.1)

def commitEvent (lb : LeafBroker) (c : EventId × Time) : LeafBroker :=
  lb.modify c.1 fun e => { e with releaseTime := c.2, committed := true }

def fastControlPath (now : Time) (lb : LeafBroker) : LeafBroker :=
  let lb := lb.modifyAll fun e =>
    if eligible now e then { e with prio := priority cfg alphaAge e } else e
  let order := sort.run (lb.events.filter (eligible now))
  let (lb, buckets) := order.foldl (placeEvent cfg (slotOf now)) (lb, [])
  (commits sort lb buckets).foldl commitEvent lb

/-! ## OnEpochTimer -/

/-- A request of a source leaf to a destination leaf. -/
structure Request (n : Nat) where
  eId : EventId
  srcLeaf : Fin n
  earliestSlot : Slot
  span : Nat
  foot : Nat
  b : Nat
  prio : Rat
  tPred : Time

abbrev DestQueues (n : Nat) := Leaf → List (Request n)

/-- The update of the age and the priority of the eligible events. -/
def observe (now : Time) (e : LocalEvent) : LocalEvent :=
  if eligible now e then
    let e := { e with
      age := if e.wasEligible then u32 (e.age + 1) else 0
      wasEligible := true
      requests := e.requests + 1 }
    { e with prio := priority cfg 2 e }
  else e

variable {n : Nat}

/-- The body of the loop over the eligible events of leaf `i`: the first slots
with room at the source, and a request to each destination. -/
def requestEvent (currentSlot : Slot) (i : Fin n) (st : LeafBroker × Dict × DestQueues n)
    (e : LocalEvent) : LeafBroker × Dict × DestQueues n :=
  let (lb, provisionalSrcFree, destQueues) := st
  let base := max e.readySlot currentSlot
  match search (fun u => decide (e.srcReq ≤ getFree provisionalSrcFree u cfg.capacityPerSlot))
      (fun s => u64 (s + e.span)) (u64 (base + wSearch)) base with
  | none => (lb.modify e.eventId fun e' => { e' with earliestSlot := noSlot },
      provisionalSrcFree, destQueues)
  | some s => (lb.modify e.eventId fun e' => { e' with earliestSlot := s },
      (e.window s).foldl (fun dict u => takeFree dict u cfg.capacityPerSlot e.srcReq)
        provisionalSrcFree,
      e.foot.entries.foldl (fun queues kv => Function.update queues kv.1
        (queues kv.1 ++ [⟨e.eventId, i, s, e.span, kv.2, e.b, e.prio, e.tPred⟩])) destQueues)

/-- The requests of leaf `i`. The record of the provisional copy is kept with
that of `srcFree`. -/
def requestPhase (now : Time) (st : (Fin n → LeafBroker) × DestQueues n) (i : Fin n) :
    (Fin n → LeafBroker) × DestQueues n :=
  let (brokers, destQueues) := st
  let lb := (brokers i).modifyAll (observe cfg now)
  let order := sort.run (lb.events.filter (eligible now))
  let (lb, provisionalSrcFree, destQueues) :=
    order.foldl (requestEvent cfg (slotOf now) i) (lb, lb.srcFree, destQueues)
  (Function.update brokers i
    { lb with srcFree := { lb.srcFree with wrapped := provisionalSrcFree.wrapped } }, destQueues)

/-- What changes while a destination leaf grants quota: its broker, the
provisional copy of its `dstFree`, and the grants by source leaf. -/
structure Grants (n : Nat) where
  lb : LeafBroker
  provisionalDstFree : Dict
  newQuota : Fin n → Slot → Option Nat := fun _ _ => none
  newPhase : Fin n → Slot → Option Time := fun _ _ => none

/-- The order in which the heads of the queues are served. -/
def Request.Before (a b : Request n) : Prop :=
  a.prio < b.prio ∨ (a.prio = b.prio ∧ a.tPred < b.tPred) ∨
    (a.prio = b.prio ∧ a.tPred = b.tPred ∧ a.srcLeaf < b.srcLeaf)

instance : DecidableRel (Request.Before (n := n)) := fun a b =>
  inferInstanceAs (Decidable (a.prio < b.prio ∨ (a.prio = b.prio ∧ a.tPred < b.tPred) ∨
    (a.prio = b.prio ∧ a.tPred = b.tPred ∧ a.srcLeaf < b.srcLeaf)))

/-- The body of the loop over the queues: the head of one, if it is the best. -/
def betterHead (queues : Fin n → List (Request n)) (best : Option (Fin n × Request n))
    (src : Fin n) : Option (Fin n × Request n) :=
  match queues src, best with
  | [], _ => best
  | head :: _, none => some (src, head)
  | head :: _, some best => if head.Before best.2 then some (src, head) else some best

/-- The best head, with the queue it is in. -/
def bestHead (queues : Fin n → List (Request n)) : Option (Fin n × Request n) :=
  (List.finRange n).foldl (betterHead queues) none

/-- The grant of one slot. -/
def grantSlot (src : Fin n) (req : Request n) (g : Grants n) (u : Slot) : Grants n :=
  { g with
    newQuota := Function.update g.newQuota src (Function.update (g.newQuota src) u
      (some (u32 ((g.newQuota src u).getD 0 + req.foot))))
    provisionalDstFree := takeFree g.provisionalDstFree u cfg.capacityPerSlot req.foot
    lb := { g.lb with dstFree := takeFree g.lb.dstFree u cfg.capacityPerSlot req.foot } }

/-- The first grant to a source leaf for a start slot fixes its phase there. -/
def grantPhase (src : Fin n) (start : Slot) (g : Grants n) : Grants n :=
  match g.newPhase src start with
  | some _ => g
  | none =>
    let phase := (g.lb.nextPhase start).getD 0
    { g with
      newPhase := Function.update g.newPhase src
        (Function.update (g.newPhase src) start (some phase))
      lb := { g.lb with
        nextPhase := Function.update g.lb.nextPhase start (some (phase + phaseGap)) } }

/-- The search for a window at the destination, and the grant of it. -/
def serve (src : Fin n) (req : Request n) (g : Grants n) : Grants n :=
  match search (fun u => decide (req.foot ≤ getFree g.provisionalDstFree u cfg.capacityPerSlot))
      (fun s => u64 (s + req.span)) (u64 (req.earliestSlot + wSearch)) req.earliestSlot with
  | none => g
  | some start =>
    grantPhase src start
      ((FirstFit.window start (u64 (start + req.span))).foldl (grantSlot cfg src req) g)

/-- The loop that serves the best head until the queues, which hold `fuel`
requests, are empty. -/
def arbitrate : Nat → (Fin n → List (Request n)) → Grants n → Grants n
  | 0, _, g => g
  | fuel + 1, queues, g =>
    match bestHead queues with
    | none => g
    | some (src, req) =>
      arbitrate fuel (Function.update queues src (queues src).tail) (serve cfg src req g)

/-- The grants of leaf `d` as source leaf `s` receives them. -/
def deliver (d : Fin n) (g : Grants n) (s : Fin n) (lb : LeafBroker) : LeafBroker :=
  { lb with
    grantedQuota := Function.update lb.grantedQuota d
      { lb.grantedQuota d with
        val := fun u => match g.newQuota s u with
          | none => (lb.grantedQuota d).val u
          | some quota => some (u32 (((lb.grantedQuota d).val u).getD 0 + quota)) }
    grantedPhase := Function.update lb.grantedPhase d
      fun u => (g.newPhase s u).or (lb.grantedPhase d u) }

/-- The grants of leaf `d`. The record of the provisional copy is kept with that
of `dstFree`. -/
def grantQuota (destQueues : DestQueues n) (brokers : Fin n → LeafBroker) (d : Fin n) :
    Fin n → LeafBroker :=
  let queues : Fin n → List (Request n) := fun s => (destQueues d).filter (·.srcLeaf = s)
  let lb := { brokers d with nextPhase := fun _ => none }
  let g := arbitrate cfg (destQueues d).length queues
    { lb := lb, provisionalDstFree := lb.dstFree }
  let lb := { g.lb with dstFree := { g.lb.dstFree with
    wrapped := g.lb.dstFree.wrapped || g.provisionalDstFree.wrapped } }
  fun s => deliver d g s (Function.update brokers d lb s)

def onEpochTimer (now : Time) (st : State n) : State n :=
  let (brokers, destQueues) :=
    (List.finRange n).foldl (requestPhase cfg sort now) (st.brokers, fun _ => [])
  let brokers := (List.finRange n).foldl (grantQuota cfg destQueues) brokers
  { brokers := (List.finRange n).foldl (fun brokers i =>
      Function.update brokers i (fastControlPath cfg sort now (brokers i))) brokers
    timer := some (now + epochLength) }

/-! ## CheckAdmission -/

/-- `((uint64_t)rank << 32) | task.taskId`. -/
def eventIdOf (rank : Rank) (task : MoeTask) : EventId := u64 (rank <<< 32) ||| task.taskId

/-- `CheckAdmission(rank, task)` at time `now`; undefined in the source for a
rank without a leaf. -/
def checkAdmission (rank : Rank) (task : MoeTask) (now : Time) (st : State cfg.numLeafs) :
    Option (State cfg.numLeafs × Bool) :=
  let timer := st.timer.getD (now + epochLength)
  let eId := eventIdOf rank task
  if h : u32 (rank / cfg.k) < cfg.numLeafs then
    let srcLeaf : Fin cfg.numLeafs := ⟨u32 (rank / cfg.k), h⟩
    let lb := st.brokers srcLeaf
    match lb.localEvents.lookup eId with
    | none =>
      let lb := { lb with
        localEvents := lb.localEvents.insert eId (newEvent cfg eId rank task now) }
      some ({ brokers := Function.update st.brokers srcLeaf (fastControlPath cfg sort now lb)
              timer := some timer }, false)
    | some e => some ({ st with timer := some timer },
        e.committed && decide (e.releaseTime ≤ now))
  else none

/-! ## Runs -/

/-- A state of a run, with the time of its last step. -/
structure World where
  state : State cfg.numLeafs := {}
  clock : Time := 0

/-- The states of the runs of `CheckAdmission` calls and epoch timers from a new
scheduler. The timer goes off at its time; calls come in any order and any
number before it. -/
inductive Reachable : World cfg → Prop
  | init : Reachable {}
  | call {w : World cfg} {rank : Rank} {task : MoeTask} {now : Time}
      {st : State cfg.numLeafs} {ret : Bool} :
      Reachable w → w.clock ≤ now → (∀ t ∈ w.state.timer, now ≤ t) →
      checkAdmission cfg sort rank task now w.state = some (st, ret) → Reachable ⟨st, now⟩
  | epoch {w : World cfg} {now : Time} :
      Reachable w → w.state.timer = some now →
      Reachable ⟨onEpochTimer cfg sort now w.state, now⟩

end

variable {cfg : Config} {sort : Sorter EventLess}

/-- What happens in a step: a call or the epoch timer. -/
inductive Input
  | call (rank : Rank) (task : MoeTask) (now : Time)
  | epoch (now : Time)

def Input.now : Input → Time
  | .call _ _ now => now
  | .epoch now => now

/-- A step of the runs of `Reachable`, with its input. -/
inductive Step (cfg : Config) (sort : Sorter EventLess) : World cfg → Input → World cfg → Prop
  | call {w : World cfg} {rank : Rank} {task : MoeTask} {now : Time}
      {st : State cfg.numLeafs} {ret : Bool} :
      w.clock ≤ now → (∀ t ∈ w.state.timer, now ≤ t) →
      checkAdmission cfg sort rank task now w.state = some (st, ret) →
      Step cfg sort w (.call rank task now) ⟨st, now⟩
  | epoch {w : World cfg} {now : Time} :
      w.state.timer = some now →
      Step cfg sort w (.epoch now) ⟨onEpochTimer cfg sort now w.state, now⟩

/-- A run whose inputs all satisfy `P`. -/
abbrev Run (cfg : Config) (sort : Sorter EventLess) (P : Input → Prop) :
    World cfg → World cfg → Prop :=
  Relation.ReflTransGen fun w w' => ∃ input, P input ∧ Step cfg sort w input w'

theorem Reachable.run {w : World cfg} (h : Reachable cfg sort w) :
    Run cfg sort (fun _ => True) {} w := by
  induction h with
  | init => exact .refl
  | call _ hclock htimer hcall ih => exact .tail ih ⟨_, trivial, .call hclock htimer hcall⟩
  | epoch _ htimer ih => exact .tail ih ⟨_, trivial, .epoch htimer⟩

theorem Run.reachable {P : Input → Prop} {w w' : World cfg} (hrun : Run cfg sort P w w')
    (hw : Reachable cfg sort w) : Reachable cfg sort w' := by
  induction hrun with
  | refl => exact hw
  | tail _ hstep ih =>
    obtain ⟨input, -, hstep⟩ := hstep
    cases hstep with
    | call hclock htimer hcall => exact .call ih hclock htimer hcall
    | epoch htimer => exact .epoch ih htimer

end MoeJit.DistributedAging
