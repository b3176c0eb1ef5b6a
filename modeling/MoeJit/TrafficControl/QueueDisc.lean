import Mathlib.Data.UInt
import Mathlib.Algebra.Group.Prod
import Mathlib.Algebra.BigOperators.Group.List.Basic

/-!
# Queue discs

`QueueDisc` of `queue-disc.cc`: a tree of queue discs with the statistics of each. A queue disc is
told by traces what its internal queues and its children do. Here an operation on a child returns
the traces it fires, in order, and its parent handles them with the functions that
`AddQueueDiscClass` connects.

What `DoEnqueue`, `DoDequeue` and an overridden `DoPeek` choose is open, so operations are
relations: `DoEnqueue` stores its packet in one internal queue or child or drops it, `DoDequeue`
takes packets from them and may drop any of them again, as long as it keeps no more than the one it
returns.

Marks, the reasons of drops, time stamps and size limits are left out.
-/

namespace MoeJit.TrafficControl

/-! ## State -/

/-- A `QueueDiscItem` for a device with `n + 1` transmission queues. -/
structure QueueDiscItem (n : Nat) where
  uid : Nat
  /-- `GetSize()`. -/
  size : UInt32
  /-- `GetTxQueueIndex()`. -/
  txQueueIndex : Fin (n + 1)

/-- A number of packets (`uint32_t`) and of bytes (`uint64_t`). -/
abbrev Count := UInt32 × UInt64

variable {n : Nat}

/-- One packet. -/
def amount (item : QueueDiscItem n) : Count := (1, item.size.toUInt64)

/-- Some packets. -/
def total (items : List (QueueDiscItem n)) : Count := (items.map amount).sum

/-- `m_stats`. -/
structure Stats where
  totalReceived : Count := 0
  totalEnqueued : Count := 0
  totalDequeued : Count := 0
  totalDropped : Count := 0
  totalDroppedBeforeEnqueue : Count := 0
  totalDroppedAfterDequeue : Count := 0
  totalRequeued : Count := 0

/-- The members of one queue disc. `sent` is a record of what was handed to the device or returned
to the parent; no modelled function reads it. -/
structure Members (n : Nat) where
  stats : Stats := {}
  nPackets : UInt32 := 0
  nBytes : UInt32 := 0
  requeued : Option (QueueDiscItem n) := none
  peeked : Bool := false
  queues : List (List (QueueDiscItem n)) := []
  sent : List (QueueDiscItem n) := []

/-- A queue disc with the queue discs of its classes. -/
inductive QueueDisc (n : Nat)
  | mk (self : Members n) (classes : List (QueueDisc n))

namespace QueueDisc

def self : QueueDisc n → Members n
  | mk self _ => self

def classes : QueueDisc n → List (QueueDisc n)
  | mk _ classes => classes

/-- The parent records the packets that a child has returned to it. -/
def handOver (d : QueueDisc n) (items : List (QueueDiscItem n)) : QueueDisc n :=
  mk { d.self with sent := d.self.sent ++ items } d.classes

end QueueDisc

/-! ## Traces -/

/-- What a queue disc tells its parent. -/
inductive Trace (n : Nat)
  | enqueue (item : QueueDiscItem n)
  | dequeue (item : QueueDiscItem n)
  | dropBeforeEnqueue (item : QueueDiscItem n)
  | dropAfterDequeue (item : QueueDiscItem n)

/-- `PacketEnqueued`. -/
def packetEnqueued (item : QueueDiscItem n) (d : Members n) : Members n × List (Trace n) :=
  ({ d with
    nPackets := d.nPackets + 1
    nBytes := d.nBytes + item.size
    stats := { d.stats with totalEnqueued := d.stats.totalEnqueued + amount item } },
    [.enqueue item])

/-- `PacketDequeued`. -/
def packetDequeued (item : QueueDiscItem n) (d : Members n) : Members n × List (Trace n) :=
  if d.peeked then (d, [])
  else
    ({ d with
      nPackets := d.nPackets - 1
      nBytes := d.nBytes - item.size
      stats := { d.stats with totalDequeued := d.stats.totalDequeued + amount item } },
      [.dequeue item])

/-- `DropBeforeEnqueue`. -/
def dropBeforeEnqueue (item : QueueDiscItem n) (d : Members n) : Members n × List (Trace n) :=
  ({ d with stats := { d.stats with
      totalDropped := d.stats.totalDropped + amount item
      totalDroppedBeforeEnqueue := d.stats.totalDroppedBeforeEnqueue + amount item } },
    [.dropBeforeEnqueue item])

/-- `DropAfterDequeue`. During a peek the packet has not been counted as dequeued yet. -/
def dropAfterDequeue (item : QueueDiscItem n) (d : Members n) : Members n × List (Trace n) :=
  let d := { d with stats := { d.stats with
    totalDropped := d.stats.totalDropped + amount item
    totalDroppedAfterDequeue := d.stats.totalDroppedAfterDequeue + amount item } }
  if d.peeked then
    let (d, traces) := packetDequeued item { d with peeked := false }
    ({ d with peeked := true }, traces ++ [.dropAfterDequeue item])
  else (d, [.dropAfterDequeue item])

/-- The callback for a trace of a child. -/
def handle (d : Members n) : Trace n → Members n × List (Trace n)
  | .enqueue item => packetEnqueued item d
  | .dequeue item => packetDequeued item d
  | .dropBeforeEnqueue item => dropBeforeEnqueue item d
  | .dropAfterDequeue item => dropAfterDequeue item d

def handleAll (d : Members n) : List (Trace n) → Members n × List (Trace n)
  | [] => (d, [])
  | trace :: traces =>
    let (d, fired) := handle d trace
    let (d, later) := handleAll d traces
    (d, fired ++ later)

/-! ## Operations -/

/-- The count at the begin of `Enqueue`. -/
def receive (item : QueueDiscItem n) (d : Members n) : Members n :=
  { d with stats := { d.stats with totalReceived := d.stats.totalReceived + amount item } }

/-- `Enqueue`, with the traces it fires. -/
inductive Enqueue (item : QueueDiscItem n) :
    QueueDisc n → List (Trace n) → QueueDisc n → Prop
  /-- An internal queue stores the packet. -/
  | queue {d d' : Members n} {classes : List (QueueDisc n)} {i : Nat}
      {front back : List (QueueDiscItem n)} {traces : List (Trace n)} :
      d.queues[i]? = some (front ++ back) →
      packetEnqueued item { receive item d with
        queues := d.queues.set i (front ++ item :: back) } = (d', traces) →
      Enqueue item ⟨d, classes⟩ traces ⟨d', classes⟩
  /-- An internal queue is full, or the queue disc drops the packet itself. -/
  | drop {d d' : Members n} {classes : List (QueueDisc n)} {traces : List (Trace n)} :
      dropBeforeEnqueue item (receive item d) = (d', traces) →
      Enqueue item ⟨d, classes⟩ traces ⟨d', classes⟩
  /-- The packet goes to a child. -/
  | child {d d' : Members n} {classes : List (QueueDisc n)} {j : Nat} {c c' : QueueDisc n}
      {fired traces : List (Trace n)} :
      classes[j]? = some c → Enqueue item c fired c' →
      handleAll (receive item d) fired = (d', traces) →
      Enqueue item ⟨d, classes⟩ traces ⟨d', classes.set j c'⟩

/-- The part of `Dequeue` for a packet held by a peek, or requeued. -/
def release (item : QueueDiscItem n) (d : Members n) : Members n × List (Trace n) :=
  let d := { d with requeued := none }
  if d.peeked then packetDequeued item { d with peeked := false } else (d, [])

inductive Op
  | doDequeue
  | dequeue
  | peek

/-- `DoDequeue` up to some point, `Dequeue` and `Peek`, with the traces they fire and the packets
taken so far, or returned. -/
inductive Take : Op → QueueDisc n → List (Trace n) → List (QueueDiscItem n) → QueueDisc n → Prop
  | start {d : QueueDisc n} : Take .doDequeue d [] [] d
  /-- A packet from an internal queue. -/
  | queue {d : QueueDisc n} {m m' : Members n} {classes : List (QueueDisc n)} {i : Nat}
      {item : QueueDiscItem n} {front back taken : List (QueueDiscItem n)}
      {traces fired : List (Trace n)} :
      Take .doDequeue d traces taken ⟨m, classes⟩ →
      m.queues[i]? = some (front ++ item :: back) →
      packetDequeued item { m with queues := m.queues.set i (front ++ back) } = (m', fired) →
      Take .doDequeue d (traces ++ fired) (item :: taken) ⟨m', classes⟩
  /-- The answer of a child. -/
  | child {d c c' : QueueDisc n} {m m' : Members n} {classes : List (QueueDisc n)} {j : Nat}
      {got taken : List (QueueDiscItem n)} {traces below fired : List (Trace n)} :
      Take .doDequeue d traces taken ⟨m, classes⟩ → classes[j]? = some c →
      Take .dequeue c below got c' → handleAll m below = (m', fired) →
      Take .doDequeue d (traces ++ fired) (got ++ taken) ⟨m', classes.set j (c'.handOver got)⟩
  /-- A look at what a child would answer. -/
  | peekChild {d c c' : QueueDisc n} {m m' : Members n} {classes : List (QueueDisc n)} {j : Nat}
      {seen taken : List (QueueDiscItem n)} {traces below fired : List (Trace n)} :
      Take .doDequeue d traces taken ⟨m, classes⟩ → classes[j]? = some c →
      Take .peek c below seen c' → handleAll m below = (m', fired) →
      Take .doDequeue d (traces ++ fired) taken ⟨m', classes.set j c'⟩
  | drop {d : QueueDisc n} {m m' : Members n} {classes : List (QueueDisc n)}
      {item : QueueDiscItem n} {front back : List (QueueDiscItem n)}
      {traces fired : List (Trace n)} :
      Take .doDequeue d traces (front ++ item :: back) ⟨m, classes⟩ →
      dropAfterDequeue item m = (m', fired) →
      Take .doDequeue d (traces ++ fired) (front ++ back) ⟨m', classes⟩
  /-- `Dequeue` of the packet that is held. -/
  | held {m m' : Members n} {classes : List (QueueDisc n)} {item : QueueDiscItem n}
      {fired : List (Trace n)} :
      m.requeued = some item → release item m = (m', fired) →
      Take .dequeue ⟨m, classes⟩ fired [item] ⟨m', classes⟩
  /-- `Dequeue` when no packet is held. -/
  | next {d : QueueDisc n} {d' : QueueDisc n} {got : List (QueueDiscItem n)}
      {fired : List (Trace n)} :
      d.self.requeued = none → Take .doDequeue d fired got d' → got.length ≤ 1 →
      Take .dequeue d fired got d'
  | peekHeld {d : QueueDisc n} : d.self.requeued ≠ none →
      Take .peek d [] d.self.requeued.toList d
  /-- `DoPeek` when no packet is held. -/
  | peekNext {m m' : Members n} {classes classes' : List (QueueDisc n)}
      {got : List (QueueDiscItem n)} {fired : List (Trace n)} :
      m.requeued = none →
      Take .dequeue ⟨{ m with peeked := true }, classes⟩ fired got ⟨m', classes'⟩ →
      Take .peek ⟨m, classes⟩ fired got
        ⟨{ m' with requeued := got.head?, peeked := got.head?.isSome && m'.peeked }, classes'⟩
  /-- An overridden `DoPeek` that looks into an internal queue. -/
  | look {d : QueueDisc n} {seen : List (QueueDiscItem n)} : Take .peek d [] seen d
  /-- An overridden `DoPeek` that peeks at a child and goes on. -/
  | lookChild {c c' d' : QueueDisc n} {m m' : Members n} {classes : List (QueueDisc n)} {j : Nat}
      {seen seen' : List (QueueDiscItem n)} {below fired later : List (Trace n)} :
      classes[j]? = some c → Take .peek c below seen c' → handleAll m below = (m', fired) →
      Take .peek ⟨m', classes.set j c'⟩ later seen' d' →
      Take .peek ⟨m, classes⟩ (fired ++ later) seen' d'

/-- The sent packets and bytes in `GetStats`. -/
def totalSent (d : Members n) : Count :=
  d.stats.totalDequeued - total d.requeued.toList - d.stats.totalDroppedAfterDequeue

end MoeJit.TrafficControl
