import MoeJit.TrafficControl.QueueDisc
import Mathlib.Tactic.Abel

/-!
# The accounts of queue discs

What the operations of a queue disc do to its counters, and to those of its parent, which only hears
of them by traces. Between the steps of an operation the counters are those for the packets that are
stored and those that were taken and not yet dropped or returned (`Sound`); a peek decides on which
side the latter stand. So every operation leaves all counters of the tree in order (`take_spec`,
`enqueue_spec`).
-/

namespace MoeJit.TrafficControl

open List
open UInt32 (ofNat)

variable {n : Nat}

/-! ## 1. Counts -/

/-- A count in the words of `m_nPackets` and `m_nBytes`. -/
def shrink (c : Count) : UInt32 × UInt32 := (c.1, c.2.toUInt32)

/-- The members that say what is queued agree with the totals. -/
def SizeOk (d : Members n) : Prop :=
  (d.nPackets, d.nBytes) = shrink (d.stats.totalEnqueued - d.stats.totalDequeued)

/-- What a trace says was enqueued. -/
@[simp] def Trace.enqueued : Trace n → Count
  | .enqueue item => amount item
  | _ => 0

@[simp] def Trace.dequeued : Trace n → Count
  | .dequeue item => amount item
  | _ => 0

@[simp] def Trace.droppedBefore : Trace n → Count
  | .dropBeforeEnqueue item => amount item
  | _ => 0

@[simp] def Trace.droppedAfter : Trace n → Count
  | .dropAfterDequeue item => amount item
  | _ => 0

/-- The sum of a count over traces. -/
def sumOver (f : Trace n → Count) (traces : List (Trace n)) : Count := (traces.map f).sum

/-- What a queue disc has enqueued and not dequeued. -/
def QueueDisc.net (d : QueueDisc n) : Count :=
  d.self.stats.totalEnqueued - d.self.stats.totalDequeued

open scoped UInt32.CommRing UInt64.CommRing

theorem shrink_add (a b : Count) : shrink (a + b) = shrink a + shrink b :=
  Prod.ext rfl (UInt64.toUInt32_add a.2 b.2)

theorem shrink_sub (a b : Count) : shrink (a - b) = shrink a - shrink b :=
  Prod.ext rfl (UInt64.toUInt32_sub a.2 b.2)

theorem shrink_amount (item : QueueDiscItem n) : shrink (amount item) = (1, item.size) :=
  Prod.ext rfl (UInt32.toUInt32_toUInt64 item.size)

theorem total_append (l l' : List (QueueDiscItem n)) : total (l ++ l') = total l + total l' := by
  simp only [total, map_append, sum_append]

@[simp] theorem total_nil : total ([] : List (QueueDiscItem n)) = 0 := rfl

theorem total_cons (item : QueueDiscItem n) (l : List (QueueDiscItem n)) :
    total (item :: l) = amount item + total l := by
  simp only [total, map_cons, sum_cons]

@[simp] theorem sumOver_nil (f : Trace n → Count) : sumOver f [] = 0 := rfl

@[simp] theorem sumOver_cons (f : Trace n → Count) (trace : Trace n) (traces : List (Trace n)) :
    sumOver f (trace :: traces) = f trace + sumOver f traces := by
  simp only [sumOver, map_cons, sum_cons]

@[simp] theorem sumOver_append (f : Trace n → Count) (l l' : List (Trace n)) :
    sumOver f (l ++ l') = sumOver f l + sumOver f l' := by
  simp only [sumOver, map_append, sum_append]

/-! ## 2. Traces -/

/-- A queue disc fires traces for all that it counts, packets received apart. -/
structure Fires (d : Members n) (traces : List (Trace n)) (d' : Members n) : Prop where
  enqueued : d'.stats.totalEnqueued = d.stats.totalEnqueued + sumOver Trace.enqueued traces
  dequeued : d'.stats.totalDequeued = d.stats.totalDequeued + sumOver Trace.dequeued traces
  droppedBefore : d'.stats.totalDroppedBeforeEnqueue =
    d.stats.totalDroppedBeforeEnqueue + sumOver Trace.droppedBefore traces
  droppedAfter : d'.stats.totalDroppedAfterDequeue =
    d.stats.totalDroppedAfterDequeue + sumOver Trace.droppedAfter traces

theorem Fires.refl (d : Members n) : Fires d [] d := by
  constructor <;> rw [sumOver_nil, add_zero]

theorem Fires.trans {d d' d'' : Members n} {ts ts' : List (Trace n)} (h : Fires d ts d')
    (h' : Fires d' ts' d'') : Fires d (ts ++ ts') d'' where
  enqueued := by rw [h'.enqueued, h.enqueued, sumOver_append, add_assoc]
  dequeued := by rw [h'.dequeued, h.dequeued, sumOver_append, add_assoc]
  droppedBefore := by rw [h'.droppedBefore, h.droppedBefore, sumOver_append, add_assoc]
  droppedAfter := by rw [h'.droppedAfter, h.droppedAfter, sumOver_append, add_assoc]

/-- What traces of its children do to a queue disc. While it holds a packet for a peek, packets
count as dequeued when they are dropped and not before. -/
structure Absorbs (d : Members n) (traces : List (Trace n)) (d' : Members n) : Prop where
  requeued : d'.requeued = d.requeued
  peeked : d'.peeked = d.peeked
  queues : d'.queues = d.queues
  sent : d'.sent = d.sent
  received : d'.stats.totalReceived = d.stats.totalReceived
  enqueued : d'.stats.totalEnqueued = d.stats.totalEnqueued + sumOver Trace.enqueued traces
  dequeued : d'.stats.totalDequeued = d.stats.totalDequeued +
    if d.peeked then sumOver Trace.droppedAfter traces else sumOver Trace.dequeued traces
  droppedBefore : d'.stats.totalDroppedBeforeEnqueue =
    d.stats.totalDroppedBeforeEnqueue + sumOver Trace.droppedBefore traces
  droppedAfter : d'.stats.totalDroppedAfterDequeue =
    d.stats.totalDroppedAfterDequeue + sumOver Trace.droppedAfter traces
  dropped : d'.stats.totalDropped = d.stats.totalDropped +
    (sumOver Trace.droppedBefore traces + sumOver Trace.droppedAfter traces)
  size : SizeOk d → SizeOk d'

variable {item : QueueDiscItem n} {traces fired : List (Trace n)} {classes : List (QueueDisc n)}
  {taken got : List (QueueDiscItem n)} {m m' : Members n} {d c c' : QueueDisc n} {j : Nat}

theorem packetEnqueued_sizeOk {d : Members n} (h : SizeOk d) :
    SizeOk (packetEnqueued item d).1 := by
  have hsub : d.stats.totalEnqueued + amount item - d.stats.totalDequeued =
      d.stats.totalEnqueued - d.stats.totalDequeued + amount item := by abel
  show (d.nPackets + 1, d.nBytes + item.size) = _
  rw [packetEnqueued, hsub, shrink_add, shrink_amount, ← h]
  rfl

theorem packetDequeued_sizeOk {d : Members n} (h : SizeOk d) :
    SizeOk (packetDequeued item d).1 := by
  unfold packetDequeued
  split
  · exact h
  · have hsub : d.stats.totalEnqueued - (d.stats.totalDequeued + amount item) =
        d.stats.totalEnqueued - d.stats.totalDequeued - amount item := by abel
    show (d.nPackets - 1, d.nBytes - item.size) = shrink (_ - (_ + _))
    rw [hsub, shrink_sub, shrink_amount, ← h]
    rfl

theorem dropAfterDequeue_sizeOk {d : Members n} (h : SizeOk d) :
    SizeOk (dropAfterDequeue item d).1 := by
  simp only [dropAfterDequeue]
  split
  · exact packetDequeued_sizeOk (d := { d with
      stats := { d.stats with totalDropped := _, totalDroppedAfterDequeue := _ }
      peeked := false }) h
  · exact h

theorem handle_spec (d : Members n) (trace : Trace n) :
    Absorbs d [trace] (handle d trace).1 ∧ Fires d (handle d trace).2 (handle d trace).1 := by
  cases trace with
  | enqueue item =>
    refine ⟨⟨rfl, rfl, rfl, rfl, rfl, ?_, ?_, ?_, ?_, ?_, packetEnqueued_sizeOk⟩,
      ?_, ?_, ?_, ?_⟩ <;>
      simp [handle, packetEnqueued]
  | dequeue item =>
    cases hpeek : d.peeked <;>
      refine ⟨⟨?_, ?_, ?_, ?_, ?_, ?_, ?_, ?_, ?_, ?_, packetDequeued_sizeOk⟩, ?_, ?_, ?_, ?_⟩ <;>
      simp [handle, packetDequeued, hpeek]
  | dropBeforeEnqueue item =>
    refine ⟨⟨rfl, rfl, rfl, rfl, rfl, ?_, ?_, ?_, ?_, ?_, id⟩, ?_, ?_, ?_, ?_⟩ <;>
      simp [handle, dropBeforeEnqueue]
  | dropAfterDequeue item =>
    cases hpeek : d.peeked <;>
      refine ⟨⟨?_, ?_, ?_, ?_, ?_, ?_, ?_, ?_, ?_, ?_, dropAfterDequeue_sizeOk⟩, ?_, ?_, ?_, ?_⟩ <;>
      simp [handle, dropAfterDequeue, packetDequeued, hpeek]

theorem Absorbs.cons {d d' d'' : Members n} {trace : Trace n} {traces : List (Trace n)}
    (h : Absorbs d [trace] d') (h' : Absorbs d' traces d'') :
    Absorbs d (trace :: traces) d'' where
  requeued := h'.requeued.trans h.requeued
  peeked := h'.peeked.trans h.peeked
  queues := h'.queues.trans h.queues
  sent := h'.sent.trans h.sent
  received := h'.received.trans h.received
  enqueued := by rw [h'.enqueued, h.enqueued, add_assoc, ← sumOver_append, singleton_append]
  dequeued := by
    rw [h'.dequeued, h.dequeued, h.peeked, add_assoc]
    split <;> rw [← sumOver_append, singleton_append]
  droppedBefore := by
    rw [h'.droppedBefore, h.droppedBefore, add_assoc, ← sumOver_append, singleton_append]
  droppedAfter := by
    rw [h'.droppedAfter, h.droppedAfter, add_assoc, ← sumOver_append, singleton_append]
  dropped := by
    rw [h'.dropped, h.dropped]
    simp only [sumOver_cons, sumOver_nil]
    abel
  size := fun hsize => h'.size (h.size hsize)

theorem handleAll_spec {d d' : Members n} (h : handleAll d traces = (d', fired)) :
    Absorbs d traces d' ∧ Fires d fired d' := by
  induction traces generalizing d d' fired with
  | nil =>
    cases h
    exact ⟨⟨rfl, rfl, rfl, rfl, rfl, by simp, by simp, by simp, by simp, by simp, id⟩, .refl d⟩
  | cons trace traces ih =>
    obtain ⟨habsorb, hfire⟩ := handle_spec d trace
    obtain ⟨habsorb', hfire'⟩ := ih (Prod.mk.eta (p := handleAll (handle d trace).1 traces)).symm
    cases h
    exact ⟨habsorb.cons habsorb', hfire.trans hfire'⟩

/-! ## 3. Steps of an operation -/

/-- The counters of a queue disc are those for what its queues and children hold and for the packets
that it has taken from them. These are still counted as queued during a peek. -/
structure Sound (d : Members n) (classes : List (QueueDisc n)) (taken : List (QueueDiscItem n)) :
    Prop where
  received : d.stats.totalReceived =
    d.stats.totalDroppedBeforeEnqueue + d.stats.totalEnqueued
  dropped : d.stats.totalDropped =
    d.stats.totalDroppedBeforeEnqueue + d.stats.totalDroppedAfterDequeue
  size : SizeOk d
  content : d.stats.totalEnqueued - d.stats.totalDequeued =
    total d.queues.flatten + (classes.map QueueDisc.net).sum + if d.peeked then total taken else 0
  sent : d.stats.totalDequeued = d.stats.totalDroppedAfterDequeue + total d.sent +
    if d.peeked then 0 else total taken

/-- A step that tells a queue disc of what has happened to its queues and children keeps the
counters in order. -/
theorem Sound.absorb {d d' : Members n} {classes' : List (QueueDisc n)}
    {taken' : List (QueueDiscItem n)} (h : Sound d classes taken)
    (queues : List (List (QueueDiscItem n))) (received : Count) (habsorb : Absorbs { d with
      queues := queues, stats := { d.stats with totalReceived := received } } traces d')
    (hrecv : received = d.stats.totalReceived +
      (sumOver Trace.droppedBefore traces + sumOver Trace.enqueued traces))
    (hcontent : total queues.flatten + (classes'.map QueueDisc.net).sum =
      total d.queues.flatten + (classes.map QueueDisc.net).sum +
        (sumOver Trace.enqueued traces - sumOver Trace.dequeued traces)) (htaken : total taken' =
      total taken + (sumOver Trace.dequeued traces - sumOver Trace.droppedAfter traces)) :
    Sound d' classes' taken' := by
  obtain ⟨-, hpeeked, hqueues, hsent, hrec, henq, hdeq, hbefore, hafter, hdrop, hsize⟩ := habsorb
  simp only at hpeeked hqueues hsent hrec henq hdeq hbefore hafter hdrop
  refine ⟨?_, ?_, hsize h.size, ?_, ?_⟩
  · rw [hrec, hrecv, hbefore, henq, h.received]
    abel
  · rw [hdrop, hbefore, hafter, h.dropped]
    abel
  · have hbalance := h.content
    rw [henq, hdeq, hqueues, hcontent, hpeeked]
    split
    · next hpeek =>
      rw [if_pos hpeek] at hbalance
      rw [htaken, add_sub_add_comm, hbalance]
      abel
    · next hpeek =>
      rw [if_neg hpeek] at hbalance
      rw [add_sub_add_comm, hbalance]
      abel
  · have hbalance := h.sent
    rw [hdeq, hafter, hsent, hpeeked]
    split
    · next hpeek =>
      rw [if_pos hpeek] at hbalance
      rw [hbalance]
      abel
    · next hpeek =>
      rw [if_neg hpeek] at hbalance
      rw [hbalance, htaken]
      abel

theorem Sound.hold (h : Sound m classes taken) (held : Option (QueueDiscItem n)) {peeked : Bool}
    (hpeek : taken = [] ∨ peeked = m.peeked) :
    Sound { m with requeued := held, peeked := peeked } classes taken := by
  obtain ⟨hrecv, hdropped, hsize, hcontent, hsent⟩ := h
  refine ⟨hrecv, hdropped, hsize, ?_, ?_⟩
  · rcases hpeek with rfl | rfl
    · rw [total_nil, ite_self] at hcontent ⊢
      exact hcontent
    · exact hcontent
  · rcases hpeek with rfl | rfl
    · rw [total_nil, ite_self] at hsent ⊢
      exact hsent
    · exact hsent

/-- A queue disc between two operations of its parent: it holds a packet if and only if it was
peeked at. -/
inductive Rest : QueueDisc n → Prop
  | mk {d : Members n} {classes : List (QueueDisc n)} :
      Sound d classes d.requeued.toList → (d.requeued ≠ none ↔ d.peeked = true) →
      (∀ c ∈ classes, Rest c) → Rest ⟨d, classes⟩

theorem Rest.out (h : Rest d) : Sound d.self d.classes d.self.requeued.toList ∧
      (d.self.requeued ≠ none ↔ d.self.peeked = true) ∧ ∀ c ∈ d.classes, Rest c := by
  cases h with
  | mk hsound hheld hclasses => exact ⟨hsound, hheld, hclasses⟩

theorem Rest.of (hsound : Sound d.self d.classes d.self.requeued.toList)
    (hheld : d.self.requeued ≠ none ↔ d.self.peeked = true) (hclasses : ∀ c ∈ d.classes, Rest c) :
    Rest d := by
  cases d with
  | mk d classes => exact .mk hsound hheld hclasses

theorem Rest.dequeued (h : Rest d) : d.self.stats.totalDequeued =
    d.self.stats.totalDroppedAfterDequeue + total d.self.sent := by
  obtain ⟨hsound, hheld, -⟩ := h.out
  rw [hsound.sent]
  split
  · rw [add_zero]
  · next hpeek =>
    rw [not_not.mp fun hne => hpeek (hheld.mp hne), Option.toList_none, total_nil, add_zero]

theorem sum_map_set {α : Type} {l : List α} {a : α} (h : l[j]? = some a) (a' : α) (f : α → Count) :
    ((l.set j a').map f).sum = (l.map f).sum + (f a' - f a) := by
  obtain ⟨hlt, rfl⟩ := List.getElem?_eq_some_iff.mp h
  have hmap : j < (l.map f).length := by rwa [length_map]
  rw [map_set, sum_set', dif_pos hmap, getElem_map, neg_add_eq_sub]

theorem forall_mem_set {P : QueueDisc n → Prop} (h : ∀ c ∈ classes, P c) (hc : P c') :
    ∀ c ∈ classes.set j c', P c :=
  fun c hmem => (mem_or_eq_of_mem_set hmem).elim (h c) fun heq => heq ▸ hc

theorem total_flatten (l : List (List (QueueDiscItem n))) : total l.flatten = (l.map total).sum := by
  rw [total, map_flatten, sum_flatten, map_map]
  rfl

theorem total_flatten_set {queues : List (List (QueueDiscItem n))}
    {queue queue' : List (QueueDiscItem n)} (h : queues[j]? = some queue) :
    total (queues.set j queue').flatten = total queues.flatten + (total queue' - total queue) := by
  rw [total_flatten, total_flatten, sum_map_set h]

theorem total_insert (front back : List (QueueDiscItem n)) (item : QueueDiscItem n) :
    total (front ++ item :: back) = total (front ++ back) + amount item := by
  rw [total_append, total_append, total_cons]
  abel

/-- What the operation `op` needs of the counters of its queue disc. -/
def Before : Op → QueueDisc n → Prop
  | .doDequeue, d => Sound d.self d.classes [] ∧ d.self.requeued = none
  | .dequeue, d => Sound d.self d.classes d.self.requeued.toList
  | .peek, d => Sound d.self d.classes d.self.requeued.toList ∧
      (d.self.peeked = true → d.self.requeued ≠ none)

/-- What the operation `op` leaves. -/
def After : Op → QueueDisc n → List (QueueDiscItem n) → QueueDisc n → Prop
  | .doDequeue, d, taken, d' => Sound d'.self d'.classes taken ∧ d'.self.requeued = none ∧
      d'.self.peeked = d.self.peeked
  | .dequeue, d, got, d' => Sound d'.self d'.classes got ∧ d'.self.requeued = none ∧
      d'.self.peeked = (d.self.peeked && d.self.requeued.isNone) ∧ got.length ≤ 1
  | .peek, d, _, d' => Sound d'.self d'.classes d'.self.requeued.toList ∧
      (d'.self.requeued = d.self.requeued ∧ d'.self.peeked = d.self.peeked ∨
        d.self.requeued = none ∧ (d'.self.requeued ≠ none ↔ d'.self.peeked = true))

/-- What all operations leave alone, and the traces of what they do not. -/
structure Keeps (d : QueueDisc n) (traces : List (Trace n)) (d' : QueueDisc n) : Prop where
  fires : Fires d.self traces d'.self
  sent : d'.self.sent = d.self.sent
  received : d'.self.stats.totalReceived = d.self.stats.totalReceived
  classes : ∀ c ∈ d'.classes, Rest c

theorem Keeps.trans_absorb {classes' : List (QueueDisc n)} {told : List (Trace n)}
    (h : Keeps d traces ⟨m, classes⟩) (queues : List (List (QueueDiscItem n)))
    (habsorb : Absorbs { m with queues := queues } told m')
    (hfires : Fires { m with queues := queues } fired m') (hclasses : ∀ c ∈ classes', Rest c) :
    Keeps d (traces ++ fired) ⟨m', classes'⟩ where
  fires := h.fires.trans ⟨hfires.enqueued, hfires.dequeued, hfires.droppedBefore,
    hfires.droppedAfter⟩
  sent := habsorb.sent.trans h.sent
  received := habsorb.received.trans h.received
  classes := hclasses

/-! ## 4. Packets of internal queues -/

theorem Sound.takeQueue {i : Nat} {front back : List (QueueDiscItem n)} (h : Sound m classes taken)
    (hqueue : m.queues[i]? = some (front ++ item :: back))
    (habsorb : Absorbs { m with queues := m.queues.set i (front ++ back) } [.dequeue item] m') :
    Sound m' classes (item :: taken) := by
  refine h.absorb _ _ habsorb ?_ ?_ ?_
  · simp only [sumOver_cons, sumOver_nil, Trace.enqueued, Trace.droppedBefore, add_zero]
  · rw [total_flatten_set hqueue, total_insert]
    simp only [sumOver_cons, sumOver_nil, Trace.enqueued, Trace.dequeued]
    abel
  · rw [total_cons]
    simp only [sumOver_cons, sumOver_nil, Trace.dequeued, Trace.droppedAfter]
    abel

theorem Sound.dropTaken {front back : List (QueueDiscItem n)}
    (h : Sound m classes (front ++ item :: back)) (habsorb : Absorbs m [.dropAfterDequeue item] m')
    : Sound m' classes (front ++ back) := by
  refine h.absorb m.queues m.stats.totalReceived habsorb ?_ ?_ ?_
  · simp only [sumOver_cons, sumOver_nil, Trace.enqueued, Trace.droppedBefore, add_zero]
  · simp only [sumOver_cons, sumOver_nil, Trace.enqueued, Trace.dequeued, add_zero, sub_zero]
  · rw [total_insert]
    simp only [sumOver_cons, sumOver_nil, Trace.dequeued, Trace.droppedAfter]
    abel

theorem Sound.release (h : Sound m classes [item])
    (hrelease : TrafficControl.release item m = (m', fired)) :
    Sound m' classes [item] ∧ m'.requeued = none ∧ m'.peeked = false ∧ Fires m fired m' ∧
      m'.sent = m.sent ∧ m'.stats.totalReceived = m.stats.totalReceived := by
  obtain ⟨hrecv, hdropped, hsize, hcontent, hsent⟩ := h
  unfold TrafficControl.release at hrelease
  simp only at hrelease
  split at hrelease
  · next hpeek =>
    rw [if_pos hpeek] at hcontent hsent
    obtain ⟨habsorb, hfires⟩ :=
      handle_spec { m with requeued := none, peeked := false } (.dequeue item)
    rw [handle, hrelease] at habsorb hfires
    refine ⟨⟨?_, ?_, habsorb.size hsize, ?_, ?_⟩, habsorb.requeued, habsorb.peeked,
      ⟨hfires.enqueued, hfires.dequeued, hfires.droppedBefore, hfires.droppedAfter⟩,
      habsorb.sent, habsorb.received⟩
    · rw [habsorb.received, habsorb.droppedBefore, habsorb.enqueued, hrecv]
      simp
    · rw [habsorb.dropped, habsorb.droppedBefore, habsorb.droppedAfter, hdropped]
      simp
    · rw [habsorb.enqueued, habsorb.dequeued, habsorb.queues, habsorb.peeked]
      simp only [sumOver_cons, sumOver_nil, Trace.enqueued, Trace.dequeued,
        if_neg Bool.false_ne_true, add_zero, sub_add_eq_sub_sub, hcontent, total_cons, total_nil,
        add_sub_cancel_right]
    · rw [habsorb.dequeued, habsorb.droppedAfter, habsorb.sent, habsorb.peeked]
      simp only [sumOver_cons, sumOver_nil, Trace.dequeued, Trace.droppedAfter, hsent, total_cons,
        total_nil, add_zero, if_neg Bool.false_ne_true]
  · next hpeek =>
    cases hrelease
    have hfires := Fires.refl m
    exact ⟨⟨hrecv, hdropped, hsize, hcontent, hsent⟩, rfl, Bool.eq_false_of_not_eq_true hpeek,
      ⟨hfires.enqueued, hfires.dequeued, hfires.droppedBefore, hfires.droppedAfter⟩, rfl, rfl⟩

/-! ## 5. Packets of children -/

/-- What a child has returned is what it has dequeued and not dropped. -/
theorem Rest.returned (h : Rest c) (h' : Rest c') (hfires : Fires c.self traces c'.self)
    (hsent : c'.self.sent = c.self.sent ++ got) :
    total got = sumOver Trace.dequeued traces - sumOver Trace.droppedAfter traces := by
  have hdeq := h'.dequeued
  rw [hfires.dequeued, hfires.droppedAfter, h.dequeued, hsent, total_append] at hdeq
  refine eq_sub_of_add_eq (add_left_cancel
    (a := c.self.stats.totalDroppedAfterDequeue + total c.self.sent) ?_)
  rw [hdeq]
  abel

theorem Fires.net_sub (h : Fires c.self traces c'.self) :
    c'.net - c.net = sumOver Trace.enqueued traces - sumOver Trace.dequeued traces := by
  rw [QueueDisc.net, QueueDisc.net, h.enqueued, h.dequeued]
  abel

theorem Sound.takeChild {below : List (Trace n)} (h : Sound m classes taken)
    (hc : classes[j]? = some c) (hrest : Rest c) (hrest' : Rest c')
    (hfires : Fires c.self below c'.self) (hsent : c'.self.sent = c.self.sent ++ got)
    (hrecv : c'.self.stats.totalReceived = c.self.stats.totalReceived)
    (habsorb : Absorbs m below m') : Sound m' (classes.set j c') (got ++ taken) := by
  have hnone : sumOver Trace.droppedBefore below + sumOver Trace.enqueued below = 0 := by
    have hcount := hrest'.out.1.received
    rw [hrecv, hrest.out.1.received, hfires.droppedBefore, hfires.enqueued,
      add_add_add_comm, left_eq_add] at hcount
    exact hcount
  refine h.absorb m.queues m.stats.totalReceived habsorb ?_ ?_ ?_
  · rw [hnone, add_zero]
  · rw [sum_map_set hc, hfires.net_sub, add_assoc]
  · rw [total_append, add_comm, hrest.returned hrest' hfires hsent]

theorem Sound.handOver (h : Sound m classes got) (hpeek : m.peeked = false) :
    Sound { m with sent := m.sent ++ got } classes [] := by
  obtain ⟨hrecv, hdropped, hsize, hcontent, hsent⟩ := h
  rw [hpeek, if_neg Bool.false_ne_true] at hcontent hsent
  refine ⟨hrecv, hdropped, hsize, hcontent.trans (congrArg _ ?_), hsent.trans ?_⟩
  · rw [total_nil, ite_self]
  · rw [total_nil, ite_self, add_zero, add_assoc, ← total_append]

theorem rest_handOver (h : Rest c) (hafter : After .dequeue c got c') (hkeeps : Keeps c traces c') :
    Rest (c'.handOver got) := by
  obtain ⟨-, hheld, -⟩ := h.out
  obtain ⟨hsound, hnone, hpeek, -⟩ := hafter
  have hnopeek : c'.self.peeked = false := by
    rw [hpeek]
    cases hreq : c.self.requeued with
    | none =>
      rw [Bool.eq_false_of_not_eq_true fun hpeek => hheld.mpr hpeek hreq]
      rfl
    | some item => exact Bool.and_false _
  refine .of ?_ (iff_of_false (fun hne => hne hnone) ?_) hkeeps.classes
  · rw [show (c'.handOver got).self.requeued = none from hnone]
    exact hsound.handOver hnopeek
  · rw [show (c'.handOver got).self.peeked = false from hnopeek]
    exact Bool.false_ne_true

theorem rest_of_peek {seen : List (QueueDiscItem n)} (h : Rest c) (hafter : After .peek c seen c')
    (hkeeps : Keeps c traces c') : Rest c' := by
  obtain ⟨-, hheld, -⟩ := h.out
  obtain ⟨hsound, ⟨hreq, hpeek⟩ | ⟨-, hheld'⟩⟩ := hafter
  · exact .of hsound (by rw [hreq, hpeek, hheld]) hkeeps.classes
  · exact .of hsound hheld' hkeeps.classes

/-! ## 6. Operations -/

/-- Every operation that takes packets leaves the counters of the tree in order. -/
theorem take_spec {op : Op} {d d' : QueueDisc n} {traces : List (Trace n)}
    {got : List (QueueDiscItem n)} (h : Take op d traces got d') (hbefore : Before op d)
    (hclasses : ∀ c ∈ d.classes, Rest c) : After op d got d' ∧ Keeps d traces d' := by
  induction h with
  | start => exact ⟨⟨hbefore.1, hbefore.2, rfl⟩, .refl _, rfl, rfl, hclasses⟩
  | @queue _ m m' _ i item front back _ _ fired _ hqueue hdeq ih =>
    obtain ⟨⟨hsound, hnone, hpeek⟩, hkeeps⟩ := ih hbefore hclasses
    obtain ⟨habsorb, hfires⟩ :=
      handle_spec { m with queues := m.queues.set i (front ++ back) } (.dequeue item)
    rw [handle, hdeq] at habsorb hfires
    exact ⟨⟨hsound.takeQueue hqueue habsorb, habsorb.requeued.trans hnone,
      habsorb.peeked.trans hpeek⟩, hkeeps.trans_absorb _ habsorb hfires hkeeps.classes⟩
  | child _ hc _ hhandle ih ihc =>
    obtain ⟨⟨hsound, hnone, hpeek⟩, hkeeps⟩ := ih hbefore hclasses
    have hrest := hkeeps.classes _ (mem_of_getElem? hc)
    obtain ⟨hafter, hkeepsc⟩ := ihc hrest.out.1 hrest.out.2.2
    obtain ⟨habsorb, hfires⟩ := handleAll_spec hhandle
    have hrest' := rest_handOver hrest hafter hkeepsc
    exact ⟨⟨hsound.takeChild hc hrest hrest'
      ⟨hkeepsc.fires.enqueued, hkeepsc.fires.dequeued, hkeepsc.fires.droppedBefore,
        hkeepsc.fires.droppedAfter⟩ (congrArg (· ++ _) hkeepsc.sent) hkeepsc.received habsorb,
      habsorb.requeued.trans hnone, habsorb.peeked.trans hpeek⟩,
      hkeeps.trans_absorb _ habsorb hfires (forall_mem_set hkeeps.classes hrest')⟩
  | peekChild _ hc _ hhandle ih ihc =>
    obtain ⟨⟨hsound, hnone, hpeek⟩, hkeeps⟩ := ih hbefore hclasses
    have hrest := hkeeps.classes _ (mem_of_getElem? hc)
    obtain ⟨hafter, hkeepsc⟩ := ihc ⟨hrest.out.1, hrest.out.2.1.mpr⟩ hrest.out.2.2
    obtain ⟨habsorb, hfires⟩ := handleAll_spec hhandle
    have hrest' := rest_of_peek hrest hafter hkeepsc
    exact ⟨⟨hsound.takeChild hc hrest hrest' hkeepsc.fires
      (hkeepsc.sent.trans (append_nil _).symm) hkeepsc.received habsorb,
      habsorb.requeued.trans hnone, habsorb.peeked.trans hpeek⟩,
      hkeeps.trans_absorb _ habsorb hfires (forall_mem_set hkeeps.classes hrest')⟩
  | @drop _ m m' _ item _ _ _ fired _ hdrop ih =>
    obtain ⟨⟨hsound, hnone, hpeek⟩, hkeeps⟩ := ih hbefore hclasses
    obtain ⟨habsorb, hfires⟩ := handle_spec m (.dropAfterDequeue item)
    rw [handle, hdrop] at habsorb hfires
    exact ⟨⟨hsound.dropTaken habsorb, habsorb.requeued.trans hnone, habsorb.peeked.trans hpeek⟩,
      hkeeps.trans_absorb m.queues habsorb hfires hkeeps.classes⟩
  | @held m m' classes item fired hheld hrelease =>
    have hsound : Sound m classes [item] := by
      have hbefore' : Sound m classes m.requeued.toList := hbefore
      rwa [hheld] at hbefore'
    obtain ⟨hsound', hnone, hpeek, hfires, hsent, hrecv⟩ := hsound.release hrelease
    refine ⟨⟨hsound', hnone, ?_, Nat.le_refl 1⟩, hfires, hsent, hrecv, hclasses⟩
    show m'.peeked = (m.peeked && m.requeued.isNone)
    rw [hpeek, hheld, Option.isNone_some, Bool.and_false]
  | @next d d' got fired hnone _ hone ih =>
    have hsound : Sound d.self d.classes [] := by
      have hbefore' : Sound d.self d.classes d.self.requeued.toList := hbefore
      rwa [hnone] at hbefore'
    obtain ⟨⟨hsound', hnone', hpeek⟩, hkeeps⟩ := ih ⟨hsound, hnone⟩ hclasses
    refine ⟨⟨hsound', hnone', ?_, hone⟩, hkeeps⟩
    rw [hpeek, hnone, Option.isNone_none, Bool.and_true]
  | peekHeld | look => exact ⟨⟨hbefore.1, .inl ⟨rfl, rfl⟩⟩, .refl _, rfl, rfl, hclasses⟩
  | @peekNext m m' classes classes' got fired hnone _ ih =>
    have hsound : Sound m classes [] := by
      have hbefore' : Sound m classes m.requeued.toList := hbefore.1
      rwa [hnone] at hbefore'
    have hpre : Before .dequeue ⟨{ m with peeked := true }, classes⟩ := by
      have hempty : m.requeued.toList = [] := by rw [hnone, Option.toList_none]
      show Sound { m with peeked := true } classes m.requeued.toList
      rw [hempty]
      exact hsound.hold m.requeued (.inl rfl)
    obtain ⟨⟨hsound', -, hpeek, hone⟩, hkeeps⟩ := ih hpre hclasses
    have hpeek' : m'.peeked = true := hpeek.trans (by
      show (true && m.requeued.isNone) = true
      rw [hnone]
      rfl)
    refine ⟨?_, ⟨hkeeps.fires.enqueued, hkeeps.fires.dequeued, hkeeps.fires.droppedBefore,
      hkeeps.fires.droppedAfter⟩, hkeeps.sent, hkeeps.received, hkeeps.classes⟩
    cases got with
    | nil =>
      exact ⟨hsound'.hold none (.inl rfl), .inr ⟨hnone, iff_of_false (· rfl) Bool.false_ne_true⟩⟩
    | cons item rest =>
      obtain rfl := eq_nil_of_length_eq_zero (Nat.le_zero.mp (Nat.le_of_succ_le_succ hone))
      exact ⟨hsound'.hold (some item) (.inr (Bool.true_and _)),
        .inr ⟨hnone, iff_of_true (Option.some_ne_none item) hpeek'⟩⟩
  | lookChild hc _ hhandle _ ihc ih =>
    have hrest := hclasses _ (mem_of_getElem? hc)
    obtain ⟨hafter, hkeepsc⟩ := ihc ⟨hrest.out.1, hrest.out.2.1.mpr⟩ hrest.out.2.2
    obtain ⟨habsorb, hfires⟩ := handleAll_spec hhandle
    have hrest' := rest_of_peek hrest hafter hkeepsc
    have hsound := hbefore.1.takeChild hc hrest hrest' hkeepsc.fires
      (hkeepsc.sent.trans (append_nil _).symm) hkeepsc.received habsorb
    obtain ⟨⟨hsound', hheld⟩, hkeeps⟩ := ih ⟨habsorb.requeued.symm ▸ hsound, fun hpeek =>
      habsorb.requeued.symm ▸ hbefore.2 (habsorb.peeked.symm.trans hpeek)⟩
        (forall_mem_set hclasses hrest')
    refine ⟨⟨hsound', ?_⟩, hfires.trans hkeeps.fires, hkeeps.sent.trans habsorb.sent,
      hkeeps.received.trans habsorb.received, hkeeps.classes⟩
    simpa only [QueueDisc.self, habsorb.requeued, habsorb.peeked] using hheld

/-- `Enqueue` leaves the counters of the tree in order, whatever has been taken. -/
theorem enqueue_spec {d' : QueueDisc n} (h : Enqueue item d traces d')
    (hsound : Sound d.self d.classes taken) (hclasses : ∀ c ∈ d.classes, Rest c) :
    Sound d'.self d'.classes taken ∧ d'.self.requeued = d.self.requeued ∧
      d'.self.peeked = d.self.peeked ∧ d'.self.sent = d.self.sent ∧
      d'.self.stats.totalReceived = d.self.stats.totalReceived + amount item ∧
      Fires d.self traces d'.self ∧ ∀ c ∈ d'.classes, Rest c := by
  induction h generalizing taken with
  | @queue d d' classes i front back traces hqueue henq =>
    obtain ⟨habsorb, hfires⟩ := handle_spec { receive item d with
      queues := d.queues.set i (front ++ item :: back) } (.enqueue item)
    rw [handle, henq] at habsorb hfires
    refine ⟨hsound.absorb _ _ habsorb ?_ ?_ ?_, habsorb.requeued, habsorb.peeked, habsorb.sent,
      habsorb.received, ⟨hfires.enqueued, hfires.dequeued, hfires.droppedBefore,
        hfires.droppedAfter⟩, hclasses⟩
    · simp only [sumOver_cons, sumOver_nil, Trace.droppedBefore, Trace.enqueued, add_zero, zero_add]
      rfl
    · rw [total_flatten_set hqueue, total_insert]
      simp only [sumOver_cons, sumOver_nil, Trace.enqueued, Trace.dequeued]
      show _ = total d.queues.flatten + _ + _
      abel
    · simp only [sumOver_cons, sumOver_nil, Trace.dequeued, Trace.droppedAfter, sub_zero, add_zero]
  | @drop d d' classes traces hdrop =>
    obtain ⟨habsorb, hfires⟩ := handle_spec (receive item d) (.dropBeforeEnqueue item)
    rw [handle, hdrop] at habsorb hfires
    refine ⟨hsound.absorb d.queues (d.stats.totalReceived + amount item) habsorb ?_ ?_ ?_,
      habsorb.requeued, habsorb.peeked, habsorb.sent, habsorb.received,
      ⟨hfires.enqueued, hfires.dequeued, hfires.droppedBefore, hfires.droppedAfter⟩, hclasses⟩
    · simp only [sumOver_cons, sumOver_nil, Trace.droppedBefore, Trace.enqueued, add_zero]
      rfl
    · simp only [sumOver_cons, sumOver_nil, Trace.enqueued, Trace.dequeued, sub_zero, add_zero]
      rfl
    · simp only [sumOver_cons, sumOver_nil, Trace.dequeued, Trace.droppedAfter, sub_zero, add_zero]
  | @child d d' classes j c c' fired traces hc _ hhandle ih =>
    have hrest : Rest c := hclasses c (mem_of_getElem? hc)
    obtain ⟨hsoundc, hreq, hpeek, hsent, hrecv, hfiresc, hclassesc⟩ :=
      ih hrest.out.1 hrest.out.2.2
    have hrest' : Rest c' :=
      .of (hreq.symm ▸ hsoundc) (by rw [hreq, hpeek, hrest.out.2.1]) hclassesc
    obtain ⟨habsorb, hfires⟩ := handleAll_spec hhandle
    have hcount : sumOver Trace.droppedBefore fired + sumOver Trace.enqueued fired =
        amount item := by
      have hcount := hrest'.out.1.received
      rw [hrecv, hrest.out.1.received, hfiresc.droppedBefore, hfiresc.enqueued,
        add_add_add_comm] at hcount
      exact (add_left_cancel hcount).symm
    have hreturned := hrest.returned hrest' hfiresc (hsent.trans (append_nil _).symm)
    refine ⟨hsound.absorb d.queues (d.stats.totalReceived + amount item) habsorb ?_ ?_ ?_,
      habsorb.requeued, habsorb.peeked, habsorb.sent, habsorb.received,
      ⟨hfires.enqueued, hfires.dequeued, hfires.droppedBefore, hfires.droppedAfter⟩,
      forall_mem_set hclasses hrest'⟩
    · rw [hcount]
      rfl
    · show total d.queues.flatten + ((classes.set j c').map QueueDisc.net).sum =
        total d.queues.flatten + (classes.map QueueDisc.net).sum + _
      rw [sum_map_set hc, hfiresc.net_sub, add_assoc]
    · rw [← hreturned, total_nil, add_zero]

/-! ## 7. What the counters count -/

mutual

/-- The packets in a tree of queue discs, those held by a peek included. -/
def QueueDisc.stored : QueueDisc n → List (QueueDiscItem n)
  | .mk self classes => self.queues.flatten ++
      (if self.peeked then self.requeued.toList else []) ++ storedIn classes

def storedIn : List (QueueDisc n) → List (QueueDiscItem n)
  | [] => []
  | c :: classes => c.stored ++ storedIn classes

end

/-- The bytes of some packets. -/
def byteCount (items : List (QueueDiscItem n)) : Nat :=
  (items.map fun item => item.size.toNat).sum

theorem total_storedIn (h : ∀ c ∈ classes, c.net = total c.stored) :
    (classes.map QueueDisc.net).sum = total (storedIn classes) := by
  induction classes with
  | nil => rfl
  | cons c classes ih =>
    obtain ⟨hc, hclasses⟩ := forall_mem_cons.mp h
    rw [map_cons, sum_cons, hc, ih hclasses, storedIn, total_append]

theorem Sound.net_eq {d : Members n} (h : Sound d classes d.requeued.toList)
    (hclasses : ∀ c ∈ classes, c.net = total c.stored) :
    (QueueDisc.mk d classes).net = total (QueueDisc.mk d classes).stored := by
  have hcontent := h.content
  rw [QueueDisc.net, QueueDisc.stored, total_append, total_append, ← total_storedIn hclasses]
  refine hcontent.trans ?_
  split
  · abel
  · rw [total_nil]
    abel

theorem Rest.net_eq (h : Rest d) : d.net = total d.stored := by
  induction h with
  | mk hsound _ _ ih => exact hsound.net_eq ih

theorem total_fst (items : List (QueueDiscItem n)) : (total items).1 = ofNat items.length := by
  induction items with
  | nil => rfl
  | cons item items ih =>
    rw [total_cons, length_cons, Nat.add_comm, UInt32.ofNat_add, ← ih]
    rfl

theorem total_snd (items : List (QueueDiscItem n)) :
    (total items).2 = UInt64.ofNat (byteCount items) := by
  induction items with
  | nil => rfl
  | cons item items ih =>
    rw [total_cons, byteCount, map_cons, sum_cons, UInt64.ofNat_add, ← byteCount, ← ih]
    have hsize : item.size.toUInt64 = UInt64.ofNat item.size.toNat := UInt64.toNat.inj (by simp)
    exact congrArg (· + (total items).2) hsize

/-- The identities that the statistics of a queue disc are meant to satisfy: in the words of the
source, and with the numbers of the packets that are stored and of those that were passed on. -/
structure Accounts (d : QueueDisc n) : Prop where
  received : d.self.stats.totalReceived =
    d.self.stats.totalDroppedBeforeEnqueue + d.self.stats.totalEnqueued
  dropped : d.self.stats.totalDropped =
    d.self.stats.totalDroppedBeforeEnqueue + d.self.stats.totalDroppedAfterDequeue
  packets : d.self.nPackets = d.self.stats.totalEnqueued.1 - d.self.stats.totalDequeued.1
  bytes : d.self.nBytes.toUInt64 = d.self.stats.totalEnqueued.2 - d.self.stats.totalDequeued.2
  storedPackets : d.self.nPackets.toNat = d.stored.length
  storedBytes : d.self.nBytes.toNat = byteCount d.stored
  sentPackets : (totalSent d.self).1.toNat = d.self.sent.length
  sentBytes : (totalSent d.self).2.toNat = byteCount d.self.sent

/-- What is stored and what was sent fit into the words that count them. -/
structure Within (d : QueueDisc n) : Prop where
  storedPackets : d.stored.length < 2 ^ 32
  storedBytes : byteCount d.stored < 2 ^ 32
  sentPackets : d.self.sent.length < 2 ^ 32
  sentBytes : byteCount d.self.sent < 2 ^ 64

theorem toNat_ofNat_iff (k : Nat) : (ofNat k).toNat = k ↔ k < 2 ^ 32 := by
  rw [UInt32.toNat_ofNat', Nat.mod_eq_iff_lt (by decide)]

theorem toNat_ofNat_iff' (k : Nat) : (UInt64.ofNat k).toNat = k ↔ k < 2 ^ 64 := by
  rw [UInt64.toNat_ofNat', Nat.mod_eq_iff_lt (by decide)]

theorem totalSent_of_not_peeked (h : Sound d.self d.classes d.self.requeued.toList)
    (hpeek : d.self.peeked = false) : totalSent d.self = total d.self.sent := by
  have hsent := h.sent
  rw [hpeek, if_neg Bool.false_ne_true] at hsent
  rw [totalSent, hsent]
  abel

/-- A packet that is held by a peek is subtracted though it was not dequeued. -/
theorem totalSent_of_peeked (h : Sound d.self d.classes d.self.requeued.toList)
    (hheld : d.self.peeked = true → d.self.requeued ≠ none) (hpeek : d.self.peeked = true) :
    (totalSent d.self).1 = ofNat d.self.sent.length - 1 := by
  obtain ⟨item, hitem⟩ := Option.ne_none_iff_exists'.mp (hheld hpeek)
  have hsent := h.sent
  rw [hpeek, if_pos rfl, add_zero] at hsent
  have hall : totalSent d.self = total d.self.sent - amount item := by
    rw [totalSent, hsent, hitem, Option.toList_some, total_cons, total_nil]
    abel
  rw [hall, ← total_fst]
  rfl

/-- The counters of a queue disc satisfy the identities unless it holds a packet for a peek, which
`GetStats` takes for one that was dequeued. -/
theorem accounts_iff (hsound : Sound d.self d.classes d.self.requeued.toList)
    (hheld : d.self.peeked = true → d.self.requeued ≠ none) (hnet : d.net = total d.stored) :
    Accounts d ↔ d.self.peeked = false ∧ Within d := by
  have hsize : (d.self.nPackets, d.self.nBytes) = shrink (total d.stored) :=
    hsound.size.trans (congrArg shrink hnet)
  have hpackets : d.self.nPackets = ofNat d.stored.length :=
    (congrArg Prod.fst hsize).trans (total_fst d.stored)
  have hbytes : d.self.nBytes = ofNat (byteCount d.stored) := by
    refine (congrArg Prod.snd hsize).trans ?_
    rw [shrink, total_snd]
    exact UInt64.toUInt32_ofNat' _
  constructor
  · intro h
    have hnot : d.self.peeked = false := by
      refine Bool.eq_false_of_not_eq_true fun hpeek => ?_
      have hshort := totalSent_of_peeked hsound hheld hpeek
      have hlen := congrArg ofNat h.sentPackets
      rw [UInt32.ofNat_toNat, hshort, sub_eq_self] at hlen
      exact absurd hlen (by decide)
    have hsent := totalSent_of_not_peeked hsound hnot
    refine ⟨hnot, ?_, ?_, ?_, ?_⟩
    · rw [← toNat_ofNat_iff, ← hpackets, h.storedPackets]
    · rw [← toNat_ofNat_iff, ← hbytes, h.storedBytes]
    · rw [← toNat_ofNat_iff, ← total_fst, ← hsent, h.sentPackets]
    · rw [← toNat_ofNat_iff', ← total_snd, ← hsent, h.sentBytes]
  · rintro ⟨hnot, hwithin⟩
    have hsent := totalSent_of_not_peeked hsound hnot
    refine ⟨hsound.received, hsound.dropped, congrArg Prod.fst hsound.size, ?_, ?_, ?_, ?_, ?_⟩
    · have hwide := congrArg Prod.snd hnet
      rw [total_snd] at hwide
      refine Eq.trans ?_ hwide.symm
      rw [hbytes]
      refine UInt64.toNat.inj ?_
      rw [UInt32.toNat_toUInt64, (toNat_ofNat_iff _).mpr hwithin.storedBytes,
        (toNat_ofNat_iff' _).mpr (hwithin.storedBytes.trans (by decide))]
    · rw [hpackets, (toNat_ofNat_iff _).mpr hwithin.storedPackets]
    · rw [hbytes, (toNat_ofNat_iff _).mpr hwithin.storedBytes]
    · rw [hsent, total_fst, (toNat_ofNat_iff _).mpr hwithin.sentPackets]
    · rw [hsent, total_snd, (toNat_ofNat_iff' _).mpr hwithin.sentBytes]

end MoeJit.TrafficControl
