import MoeJit.Core.Scheduler
import MoeJit.Lib.Buckets
import Mathlib.Data.BitVec

/-!
# The calendar scheduler

`CalendarScheduler` keeps the events in buckets of a width: a time goes to the bucket of its window,
modulo their number. The next event is looked for from the window of the last one on, and when the
number of events is out of proportion the buckets are made anew.

The end of a window is a sum of 64 bits that can wrap. It does so only where the bucket is empty
(`Placed.lt_windowTop`), and the next event is the smallest (`calendar_of_run`). The count of the
events has 32 bits and says that there is none when there are `2 ^ 32` (`full_is_empty`).
-/

namespace MoeJit.Scheduler

open List
open BitVec (le_def ofNat_add ofNat_toNat setWidth_eq toNat toNat_udiv)
open EventKey (lt_iff rank)

/-! ## 1. Model -/

/-- `m_nBuckets` is the number of the buckets: it doubles below 32768 only. -/
structure CalendarScheduler where
  reverse : Bool
  buckets : List (List Event)
  width : BitVec 64
  lastBucket : Nat
  bucketTop : BitVec 64
  lastPrio : BitVec 64
  qSize : BitVec 32
  deriving DecidableEq

namespace CalendarScheduler

def nextEvent (reverse : Bool) (bucket : List Event) : Option Event :=
  if reverse then bucket.getLast? else bucket.head?

def order (reverse : Bool) (a b : EventKey) : Bool := if reverse then a.gt b else a.lt b

def pop (reverse : Bool) (bucket : List Event) : List Event :=
  if reverse then bucket.dropLast else bucket.tail

/-- How the loop over the buckets ends: with an event in its window, or with the smallest one, if
there is any, and its bucket. -/
inductive Scan
  | window (i : Nat) (top : BitVec 64) (next : Event)
  | least (min : Option (Nat × Event))

section Model

variable (s : CalendarScheduler)

def nBuckets : Nat := s.buckets.length

def hash (ts : BitVec 64) : Nat := (ts / s.width).toNat % s.nBuckets

def init (nBuckets : Nat) (width startPrio : BitVec 64) : CalendarScheduler :=
  { s with
    buckets := List.replicate nBuckets []
    width := width
    lastPrio := startPrio
    lastBucket := (startPrio / width).toNat % nBuckets
    bucketTop := (startPrio / width + 1) * width }

def initial (reverse : Bool) : CalendarScheduler := init ⟨reverse, [], 0, 0, 0, 0, 0⟩ 2 1 0

/-- Before the first event of the bucket that is ordered after it. -/
def doInsert (ev : Event) : CalendarScheduler :=
  { s with
    buckets := s.buckets.modify (s.hash ev.key.ts)
      (List.orderedInsert (fun a b => order s.reverse a.key b.key = true) ev) }

def isEmpty : Bool := s.qSize = 0

/-- The smaller of the next event of bucket `i` and the smallest one so far. -/
def lesser (start : EventKey) (i : Nat) (min : Option (Nat × Event)) :
    Option Event → Option (Nat × Event)
  | none => min
  | some next =>
    if next.key.lt ((min.map (·.2.key)).getD start) then some (i, next) else min

/-- The rounds are counted down. -/
def scan (start : EventKey) : Nat → Nat → BitVec 64 → Option (Nat × Event) → Except Failure Scan
  | 0, _, _, _ => .error .invalid
  | rounds + 1, i, bucketTop, min =>
    let next := nextEvent s.reverse (bucketAt s.buckets i)
    match next.filter fun ev => ev.key.ts < bucketTop with
    | some next => .ok (.window i bucketTop next)
    | none =>
      let min := lesser start i min next
      if (i + 1) % s.nBuckets = s.lastBucket then .ok (.least min)
      else scan start rounds ((i + 1) % s.nBuckets) (bucketTop + s.width) min

/-- The key that `PeekNext` starts with. -/
def peekStart : EventKey := ⟨0xffffffffffffffff, 0xffffffff, 0⟩

/-- The key that `DoRemoveNext` starts with. -/
def removeStart : EventKey := ⟨0xffffffffffffffff, 0, 0xffffffff⟩

def peekNext : Except Failure Event :=
  if s.isEmpty then .error .invalid
  else (s.scan peekStart s.nBuckets s.lastBucket s.bucketTop none).map fun
    | .window _ _ next => next
    | .least min => (min.map Prod.snd).getD ⟨0, peekStart⟩

/-- The bucket without its next event. -/
def popAt (i : Nat) : CalendarScheduler :=
  { s with buckets := s.buckets.modify i (pop s.reverse) }

def doRemoveNext : Except Failure (CalendarScheduler × Event) :=
  if s.isEmpty then .error .invalid
  else do
    match ← s.scan removeStart s.nBuckets s.lastBucket s.bucketTop none with
    | .window i bucketTop next =>
      return ({ s.popAt i with lastBucket := i, lastPrio := next.key.ts, bucketTop := bucketTop },
        next)
    | .least none => throw .invalid
    | .least (some (i, min)) =>
      match nextEvent s.reverse (bucketAt s.buckets i) with
      | none => throw .invalid
      | some next =>
        return ({ s.popAt i with
            lastPrio := min.key.ts
            lastBucket := s.hash min.key.ts
            bucketTop := (min.key.ts / s.width + 1) * s.width }, next)

/-- The first events, and the calendar without them. -/
def gather : Nat → CalendarScheduler → Except Failure (CalendarScheduler × List Event)
  | 0, s => .ok (s, [])
  | n + 1, s => do
    let (s, ev) ← s.doRemoveNext
    let (s, samples) ← gather n s
    return (s, ev :: samples)

/-- The times between one sample and the next. -/
def separations (samples : List Event) : List (BitVec 64) :=
  List.zipWith (fun cur next => next.key.ts - cur.key.ts) samples samples.tail

/-- Three times the sum of the separations that are at most twice the average, and 1 at least. -/
def widthOf (samples : List Event) : BitVec 64 :=
  let diffs := separations samples
  let twiceAvg := diffs.sum / BitVec.ofNat 64 (samples.length - 1) * 2
  let totalSeparation := (diffs.filter (· ≤ twiceAvg)).sum * 3
  if totalSeparation < 1 then 1 else totalSeparation

def nSamples : Nat :=
  let nSamples := if s.qSize.toNat ≤ 5 then s.qSize.toNat else 5 + s.qSize.toNat / 10
  if 25 < nSamples then 25 else nSamples

/-- The samples are put back, and the place of the last event is restored. -/
def calculateNewWidth : Except Failure (CalendarScheduler × BitVec 64) :=
  if s.qSize.toNat < 2 then .ok (s, 1)
  else do
    let (s', samples) ← gather s.nSamples s
    return ({ samples.foldl doInsert s' with
        lastBucket := s.lastBucket
        bucketTop := s.bucketTop
        lastPrio := s.lastPrio }, widthOf samples)

def doResize (newSize : Nat) (newWidth : BitVec 64) : CalendarScheduler :=
  s.buckets.flatten.foldl doInsert (s.init newSize newWidth s.lastPrio)

def resize (newSize : Nat) : Except Failure CalendarScheduler := do
  let (s, newWidth) ← s.calculateNewWidth
  return s.doResize newSize newWidth

def resizeUp : Except Failure CalendarScheduler :=
  if s.nBuckets * 2 < s.qSize.toNat && s.nBuckets < 32768 then s.resize (s.nBuckets * 2)
  else .ok s

def resizeDown : Except Failure CalendarScheduler :=
  if s.qSize.toNat < s.nBuckets / 2 then s.resize (s.nBuckets / 2) else .ok s

def insert (ev : Event) : Except Failure CalendarScheduler :=
  { s.doInsert ev with qSize := s.qSize + 1 : CalendarScheduler }.resizeUp

def removeNext : Except Failure (CalendarScheduler × Event) :=
  if s.isEmpty then .error .invalid
  else do
    let (s, ev) ← s.doRemoveNext
    let s ← { s with qSize := s.qSize - 1 : CalendarScheduler }.resizeDown
    return (s, ev)

/-- The first event of its bucket with the uid. -/
def remove (ev : Event) : Except Failure CalendarScheduler :=
  if s.isEmpty then .error .invalid
  else
    let bucket := s.hash ev.key.ts
    match (bucketAt s.buckets bucket).find? fun e => e.key.uid = ev.key.uid with
    | none => .error .invalid
    | some e =>
      if e.impl = ev.impl then
        { s with
          buckets := s.buckets.modify bucket (List.eraseP fun e => e.key.uid = ev.key.uid)
          qSize := s.qSize - 1 : CalendarScheduler }.resizeDown
      else .error .invalid

def perform : Operation → Except Failure (CalendarScheduler × Result)
  | .insert ev => (s.insert ev).map fun s => (s, .nothing)
  | .isEmpty => .ok (s, .flag s.isEmpty)
  | .peekNext => s.peekNext.map fun ev => (s, .event ev)
  | .removeNext => s.removeNext.map fun result => (result.1, .event result.2)
  | .remove ev => (s.remove ev).map fun s => (s, .nothing)

end Model

/-! ## 2. Statement -/

/-- The events that are pending, and the time of the last one that `RemoveNext` took. -/
structure Ledger where
  pending : List Event
  last : BitVec 64
  deriving DecidableEq

def Ledger.advance (ledger : Ledger) (operation : Operation) (result : Result) : Ledger where
  pending := Scheduler.advance ledger.pending operation result
  last :=
    match operation, result with
    | .removeNext, .event ev => ev.key.ts
    | _, _ => ledger.last

def step (x : CalendarScheduler × Ledger) (operation : Operation) :
    Except Failure (CalendarScheduler × Ledger) :=
  (x.1.perform operation).map fun result => (result.1, x.2.advance operation result.2)

/-- No event is inserted before the last one that was taken or at a time from `2 ^ 63` on. One that
is removed is pending, and no other has its uid. -/
def Timely (x : CalendarScheduler × Ledger) : Operation → Prop
  | .insert ev => x.2.last ≤ ev.key.ts ∧ ev.key.ts.toNat < 2 ^ 63
  | .remove ev => ev ∈ x.2.pending ∧ ∀ e ∈ x.2.pending, e.key.uid = ev.key.uid → e = ev
  | _ => True

/-- There are fewer than `2 ^ 32` events. -/
def Counted (x : CalendarScheduler × Ledger) : Operation → Prop
  | .insert _ => x.2.pending.length + 1 < 2 ^ 32
  | _ => True

instance decidableTimely (x : CalendarScheduler × Ledger) : ∀ operation, Decidable (Timely x operation)
  | .insert ev => inferInstanceAs (Decidable (x.2.last ≤ ev.key.ts ∧ ev.key.ts.toNat < 2 ^ 63))
  | .remove ev => inferInstanceAs (Decidable (ev ∈ x.2.pending ∧
      ∀ e ∈ x.2.pending, e.key.uid = ev.key.uid → e = ev))
  | .isEmpty | .peekNext | .removeNext => isTrue trivial

instance decidableCounted (x : CalendarScheduler × Ledger) :
    ∀ operation, Decidable (Counted x operation)
  | .insert _ => inferInstanceAs (Decidable (x.2.pending.length + 1 < 2 ^ 32))
  | .isEmpty | .peekNext | .removeNext | .remove _ => isTrue trivial

/-- The events in the buckets. -/
def contents (s : CalendarScheduler) : List Event := s.buckets.flatten

/-- The calendar holds what is pending, the next event is the smallest, and no operation that has an
event to work on fails. -/
structure IsQueue (x : CalendarScheduler × Ledger) : Prop where
  contents : x.1.contents.Perm x.2.pending
  isEmpty : x.1.isEmpty = x.2.pending.isEmpty
  peekNext : x.2.pending ≠ [] → ∃ ev, x.1.peekNext = .ok ev ∧ Next x.2.pending ev
  removeNext : x.2.pending ≠ [] →
    ∃ s ev, x.1.removeNext = .ok (s, ev) ∧ Next x.2.pending ev
  insert : ∀ ev, Timely x (.insert ev) → Counted x (.insert ev) → ∃ s, x.1.insert ev = .ok s
  remove : ∀ ev, Timely x (.remove ev) → ∃ s, x.1.remove ev = .ok s

/-! ## 3. Buckets -/

/-- The order of the events of a bucket. -/
def InOrder (reverse : Bool) (a b : Event) : Prop :=
  if reverse then b.key.rank ≤ a.key.rank else a.key.rank ≤ b.key.rank

theorem order_iff (reverse : Bool) (a b : Event) :
    order reverse a.key b.key = true ↔ ¬InOrder reverse b a := by
  unfold order InOrder
  cases reverse with
  | true => rw [if_pos rfl, if_pos rfl, EventKey.gt_eq_lt, lt_iff, not_le]
  | false =>
    rw [if_neg Bool.false_ne_true, if_neg Bool.false_ne_true, lt_iff, not_le]

theorem InOrder.total (reverse : Bool) (a b : Event) : InOrder reverse a b ∨ InOrder reverse b a := by
  unfold InOrder
  cases reverse with
  | true | false => exact le_total _ _

theorem InOrder.trans (reverse : Bool) (a b c : Event) (hab : InOrder reverse a b)
    (hbc : InOrder reverse b c) : InOrder reverse a c := by
  unfold InOrder at *
  cases reverse with
  | true => exact le_trans hbc hab
  | false => exact le_trans hab hbc

theorem nextEvent_none {reverse : Bool} {bucket : List Event}
    (h : nextEvent reverse bucket = none) : bucket = [] := by
  unfold nextEvent at h
  cases reverse with
  | true => exact getLast?_eq_none_iff.mp h
  | false => exact head?_eq_none_iff.mp h

/-- The next event is in front of the others, and they are what `Pop` leaves. -/
theorem nextEvent_some {reverse : Bool} {bucket : List Event} {ev : Event}
    (h : nextEvent reverse bucket = some ev) : (ev :: pop reverse bucket).Perm bucket ∧
      (pop reverse bucket).Sublist bucket ∧
      (bucket.Pairwise (InOrder reverse) → ∀ e ∈ bucket, ev.key.rank ≤ e.key.rank) := by
  unfold nextEvent at h
  unfold pop
  cases reverse with
  | true =>
    obtain ⟨rest, rfl⟩ := getLast?_eq_some_iff.mp h
    rw [if_pos rfl, dropLast_concat]
    refine ⟨(perm_append_singleton ev rest).symm, sublist_append_left _ _, fun hsorted e he => ?_⟩
    cases mem_append.mp he with
    | inl hrest =>
      exact (pairwise_append.mp hsorted).2.2 e hrest ev (mem_singleton_self ev)
    | inr heq => exact le_of_eq (congrArg (·.key.rank) (mem_singleton.mp heq).symm)
  | false =>
    obtain ⟨rest, rfl⟩ := head?_eq_some_iff.mp h
    rw [if_neg Bool.false_ne_true]
    refine ⟨.refl _, sublist_cons_self _ _, fun hsorted e he => ?_⟩
    cases mem_cons.mp he with
    | inl heq => exact le_of_eq (congrArg (·.key.rank) heq.symm)
    | inr hrest => exact (pairwise_cons.mp hsorted).1 e hrest

/-- The events are in the buckets of their times. -/
structure Placed (s : CalendarScheduler) : Prop where
  width : 0 < s.width.toNat
  size : 0 < s.nBuckets
  hashed : ∀ i, ∀ e ∈ bucketAt s.buckets i, s.hash e.key.ts = i
  sorted : ∀ i, (bucketAt s.buckets i).Pairwise (InOrder s.reverse)
  below : ∀ e ∈ s.contents, e.key.ts.toNat < 2 ^ 63

/-- No event is before the last one that was taken, and the search starts from its window. -/
structure Timed (s : CalendarScheduler) : Prop where
  ahead : ∀ e ∈ s.contents, s.lastPrio ≤ e.key.ts
  lastBucket : s.lastBucket = s.hash s.lastPrio
  bucketTop : s.bucketTop = (s.lastPrio / s.width + 1) * s.width

variable {i w n : Nat}

section Buckets

variable {s s' : CalendarScheduler} {ev : Event}

theorem mem_contents {e : Event} : e ∈ s.contents ↔ ∃ i, e ∈ bucketAt s.buckets i :=
  mem_flatten_iff_bucketAt

theorem Placed.mem_bucket (h : Placed s) {e : Event} (he : e ∈ s.contents) :
    e ∈ bucketAt s.buckets (s.hash e.key.ts) := by
  obtain ⟨i, hi⟩ := mem_contents.mp he
  rw [h.hashed i e hi]
  exact hi

theorem Placed.hash_lt (h : Placed s) (ts : BitVec 64) : s.hash ts < s.buckets.length :=
  Nat.mod_lt _ h.size

theorem Placed.doInsert (h : Placed s) (hbelow : ev.key.ts.toNat < 2 ^ 63) :
    Placed (s.doInsert ev) ∧ (s.doInsert ev).contents.Perm (ev :: s.contents) := by
  let insertion := List.orderedInsert (fun a b : Event => order s.reverse a.key b.key = true) ev
  have hperm : (s.doInsert ev).contents.Perm (ev :: s.contents) :=
    flatten_modify_insert (h.hash_lt ev.key.ts) (perm_orderedInsert _ ev _)
  have hhash (ts : BitVec 64) : (s.doInsert ev).hash ts = s.hash ts := by
    unfold hash nBuckets CalendarScheduler.doInsert
    rw [length_modify]
  have hbucket (i : Nat) : bucketAt (s.doInsert ev).buckets i =
      if i = s.hash ev.key.ts then insertion (bucketAt s.buckets (s.hash ev.key.ts))
      else bucketAt s.buckets i :=
    bucketAt_modify (h.hash_lt ev.key.ts) _ i
  refine ⟨⟨h.width, ?_, fun i e he => ?_, fun i => ?_, fun e he => ?_⟩, hperm⟩
  · show 0 < (s.buckets.modify _ _).length
    rw [length_modify]
    exact h.size
  · rw [hhash]
    rw [hbucket] at he
    split at he
    · next heq =>
      cases (mem_orderedInsert _).mp he with
      | inl hself => rw [hself, heq]
      | inr hmem => exact heq ▸ h.hashed _ e hmem
    · exact h.hashed i e he
  · rw [hbucket]
    split
    · exact pairwise_orderedInsert (order_iff s.reverse) (InOrder.total s.reverse)
        (InOrder.trans s.reverse) ev (h.sorted _)
    · exact h.sorted i
  · cases mem_cons.mp (hperm.mem_iff.mp he) with
    | inl heq => exact heq ▸ hbelow
    | inr hmem => exact h.below e hmem

theorem Placed.modify (h : Placed s) (s' : CalendarScheduler) (hi : i < s.buckets.length)
    {f : List Event → List Event} (hsub : (f (bucketAt s.buckets i)).Sublist (bucketAt s.buckets i))
    (heq : s' = { s with
      buckets := s.buckets.modify i f
      lastBucket := s'.lastBucket
      lastPrio := s'.lastPrio
      bucketTop := s'.bucketTop
      qSize := s'.qSize }) : Placed s' ∧ ∀ ts, s'.hash ts = s.hash ts := by
  have hbuckets : s'.buckets = s.buckets.modify i f := by rw [heq]
  have hwidth : s'.width = s.width := by rw [heq]
  have hreverse : s'.reverse = s.reverse := by rw [heq]
  have hsize : s'.nBuckets = s.nBuckets := by
    unfold nBuckets
    rw [hbuckets, length_modify]
  have hhash (ts : BitVec 64) : s'.hash ts = s.hash ts := by
    unfold hash
    rw [hwidth, hsize]
  have hbucket (j : Nat) : (bucketAt s'.buckets j).Sublist (bucketAt s.buckets j) := by
    rw [hbuckets, bucketAt_modify hi]
    split
    · next hj => exact hj ▸ hsub
    · exact .refl _
  refine ⟨⟨hwidth ▸ h.width, hsize ▸ h.size, fun j e he => ?_, fun j => ?_, fun e he => ?_⟩, hhash⟩
  · rw [hhash]
    exact h.hashed j e ((hbucket j).subset he)
  · rw [hreverse]
    exact (h.sorted j).sublist (hbucket j)
  · obtain ⟨j, hj⟩ := mem_contents.mp he
    exact h.below e (mem_contents.mpr ⟨j, (hbucket j).subset hj⟩)

end Buckets

/-! ## 4. The search -/

section Search

variable {s : CalendarScheduler}

/-- The window of a time. -/
def window (s : CalendarScheduler) (ts : BitVec 64) : Nat := ts.toNat / s.width.toNat

theorem hash_eq (s : CalendarScheduler) (ts : BitVec 64) : s.hash ts = s.window ts % s.nBuckets := by
  unfold hash window
  rw [toNat_udiv]

/-- The end of a window, as the sums of 64 bits give it. -/
def windowTop (s : CalendarScheduler) (w : Nat) : BitVec 64 :=
  BitVec.ofNat 64 ((w + 1) * s.width.toNat)

section

variable (s)

theorem windowTop_succ (w : Nat) :
    s.windowTop w + s.width = s.windowTop (w + 1) := by
  unfold windowTop
  rw [Nat.succ_mul (w + 1), ofNat_add, ofNat_toNat, setWidth_eq]

theorem windowTop_window (ts : BitVec 64) :
    (ts / s.width + 1) * s.width = s.windowTop (s.window ts) := by
  unfold windowTop window
  rw [BitVec.ofNat_mul, ofNat_add, ofNat_toNat, setWidth_eq, ← toNat_udiv, ofNat_toNat, setWidth_eq]
  rfl

theorem window_le {a b : BitVec 64} (h : a ≤ b) : s.window a ≤ s.window b :=
  Nat.div_le_div_right (le_def.mp h)

theorem window_le_of_rank {a b : EventKey} (h : a.rank ≤ b.rank) :
    s.window a.ts ≤ s.window b.ts := by
  refine s.window_le (le_def.mpr (not_lt.mp fun hlt => ?_))
  have hb := b.uid.isLt
  unfold rank at h
  omega

theorem rank_lt_of_window {a b : EventKey}
    (h : s.window a.ts < s.window b.ts) : a.rank < b.rank :=
  not_le.mp fun hle => absurd h (not_lt.mpr (s.window_le_of_rank hle))

end

/-- The end of a window that has a time from it on does not wrap, or there is one window only. -/
theorem Placed.lt_windowTop (h : Placed s) {ts : BitVec 64} (hbelow : ts.toNat < 2 ^ 63)
    (hw : w ≤ s.window ts) : ts < s.windowTop w ↔ s.window ts = w := by
  have hwidth := s.width.isLt
  have hle : w * s.width.toNat ≤ ts.toNat :=
    (Nat.mul_le_mul_right _ hw).trans (Nat.div_mul_le_self _ _)
  have htop : (w + 1) * s.width.toNat < 2 ^ 64 := by
    cases Nat.eq_zero_or_pos w with
    | inl hzero =>
      rw [hzero, Nat.zero_add, Nat.one_mul]
      exact hwidth
    | inr hpos =>
      have hone : s.width.toNat ≤ w * s.width.toNat := Nat.le_mul_of_pos_left _ hpos
      rw [Nat.succ_mul]
      omega
  have hiff : ts.toNat < (w + 1) * s.width.toNat ↔ s.window ts < w + 1 :=
    (Nat.div_lt_iff_lt_mul h.width).symm
  unfold windowTop
  rw [BitVec.lt_def, BitVec.toNat_ofNat, Nat.mod_eq_of_lt htop, hiff, Nat.lt_succ_iff]
  exact ⟨fun hle => Nat.le_antisymm hle hw, Nat.le_of_eq⟩

/-- The smallest of the next events of the first `k` buckets from the window `w` on. -/
structure Least (s : CalendarScheduler) (w k : Nat) (min : Option (Nat × Event)) : Prop where
  next : ∀ i ev, min = some (i, ev) → nextEvent s.reverse (bucketAt s.buckets i) = some ev
  least : ∀ j < k, ∀ e ∈ bucketAt s.buckets ((w + j) % s.nBuckets),
    ∃ i ev, min = some (i, ev) ∧ ev.key.rank ≤ e.key.rank

theorem Least.lesser (hplaced : Placed s) {k : Nat} {min : Option (Nat × Event)} {start : EventKey}
    (hstart : start.ts = 0xffffffffffffffff) (h : Least s w k min) :
    Least s w (k + 1) (lesser start ((w + k) % s.nBuckets) min
      (nextEvent s.reverse (bucketAt s.buckets ((w + k) % s.nBuckets)))) := by
  generalize hbucket : bucketAt s.buckets ((w + k) % s.nBuckets) = bucket
  generalize hnext : nextEvent s.reverse bucket = next
  cases next with
  | none =>
    refine ⟨h.next, fun j hj e he => ?_⟩
    cases Nat.lt_succ_iff_lt_or_eq.mp hj with
    | inl hlt => exact h.least j hlt e he
    | inr heq =>
      rw [heq, hbucket, nextEvent_none hnext] at he
      exact absurd he not_mem_nil
  | some next =>
    obtain ⟨hperm, -, hmin⟩ := nextEvent_some hnext
    have hleast := hmin (hbucket ▸ hplaced.sorted _)
    have hmem : next ∈ s.contents := mem_contents.mpr ⟨_, hbucket ▸ hperm.subset mem_cons_self⟩
    have hfirst : next.key.lt start = true := by
      have hbelow := hplaced.below next hmem
      have huid := next.key.uid.isLt
      rw [lt_iff]
      unfold rank
      rw [hstart, show (0xffffffffffffffff : BitVec 64).toNat = 2 ^ 64 - 1 from rfl]
      omega
    unfold CalendarScheduler.lesser
    dsimp only
    split
    · next hlt =>
      rw [lt_iff] at hlt
      refine ⟨fun i ev heq => ?_, fun j hj e he => ⟨_, next, rfl, ?_⟩⟩
      · cases heq
        rw [hbucket, hnext]
      · cases Nat.lt_succ_iff_lt_or_eq.mp hj with
        | inl hjk =>
          obtain ⟨i, ev, rfl, hle⟩ := h.least j hjk e he
          exact le_of_lt (lt_of_lt_of_le hlt hle)
        | inr heq =>
          rw [heq, hbucket] at he
          exact hleast e he
    · next hnot =>
      refine ⟨h.next, fun j hj e he => ?_⟩
      cases Nat.lt_succ_iff_lt_or_eq.mp hj with
      | inl hjk => exact h.least j hjk e he
      | inr heq =>
        rw [heq, hbucket] at he
        cases min with
        | none => exact absurd hfirst hnot
        | some found =>
          have hle := not_lt.mp ((not_congr (lt_iff _ _)).mp hnot)
          exact ⟨found.1, found.2, rfl, hle.trans (hleast e he)⟩

/-- The event that the search finds, in its bucket. -/
def Scanned (s : CalendarScheduler) : Scan → Prop
  | .window i bucketTop next => nextEvent s.reverse (bucketAt s.buckets i) = some next ∧
      i = s.hash next.key.ts ∧ bucketTop = s.windowTop (s.window next.key.ts) ∧ Next s.contents next
  | .least min => ∃ i next, min = some (i, next) ∧
      nextEvent s.reverse (bucketAt s.buckets i) = some next ∧ Next s.contents next

theorem Placed.next_of (h : Placed s) {next : Event}
    (hnext : nextEvent s.reverse (bucketAt s.buckets i) = some next) :
    next ∈ s.contents ∧ i = s.hash next.key.ts ∧
      ∀ e ∈ bucketAt s.buckets i, next.key.rank ≤ e.key.rank := by
  obtain ⟨hperm, -, hmin⟩ := nextEvent_some hnext
  have hmem := hperm.subset mem_cons_self
  exact ⟨mem_contents.mpr ⟨i, hmem⟩, (h.hashed i next hmem).symm, hmin (h.sorted i)⟩

theorem exists_window {b : Nat} (hb : b < n) : ∃ j < n, (w + j) % n = b := by
  have hw : w % n < n := Nat.mod_lt _ (Nat.zero_lt_of_lt hb)
  cases le_total (w % n) b with
  | inl hle =>
    refine ⟨b - w % n, lt_of_le_of_lt (Nat.sub_le _ _) hb, ?_⟩
    rw [Nat.add_mod, Nat.mod_eq_of_lt (a := b - w % n) (by omega), Nat.add_sub_cancel' hle,
      Nat.mod_eq_of_lt hb]
  | inr hle =>
    cases Nat.eq_or_lt_of_le hle with
    | inl heq => exact ⟨0, Nat.zero_lt_of_lt hb, heq.symm⟩
    | inr hlt =>
      refine ⟨b + n - w % n, by omega, ?_⟩
      rw [Nat.add_mod, Nat.mod_eq_of_lt (a := b + n - w % n) (by omega),
        Nat.add_sub_cancel' (by omega), Nat.add_mod_right, Nat.mod_eq_of_lt hb]

/-- From the bucket of window `w + k` on, when no event is before that window. -/
theorem Placed.scan (h : Placed s) {start : EventKey} (hstart : start.ts = 0xffffffffffffffff)
    (hlast : s.lastBucket = w % s.nBuckets) (hne : s.contents ≠ []) :
    ∀ (rounds k : Nat) (min : Option (Nat × Event)), k + rounds = s.nBuckets → 0 < rounds →
      (∀ e ∈ s.contents, w + k ≤ s.window e.key.ts) → Least s w k min →
      ∃ found, s.scan start rounds ((w + k) % s.nBuckets) (s.windowTop (w + k)) min = .ok found ∧
        Scanned s found := by
  intro rounds
  induction rounds with
  | zero => exact fun _ _ _ hpos => absurd hpos (Nat.lt_irrefl 0)
  | succ rounds ih =>
    intro k min hrounds _ hwindow hleast
    have hnewer := hleast.lesser h hstart
    unfold CalendarScheduler.scan
    dsimp only
    generalize hnext : nextEvent s.reverse (bucketAt s.buckets ((w + k) % s.nBuckets)) = next
      at hnewer ⊢
    generalize hfilter : next.filter (fun ev => ev.key.ts < s.windowTop (w + k)) = found
    cases found with
    | some found =>
      obtain ⟨rfl, htop⟩ := Option.filter_eq_some_iff.mp hfilter
      obtain ⟨hmem, hhash, hmin⟩ := h.next_of hnext
      have heq : s.window found.key.ts = w + k :=
        (h.lt_windowTop (h.below _ hmem) (hwindow _ hmem)).mp (of_decide_eq_true htop)
      refine ⟨_, rfl, hnext, hhash, by rw [heq], next_iff.mpr ⟨hmem, fun e he => ?_⟩⟩
      cases Nat.eq_or_lt_of_le (hwindow e he) with
      | inl hsame =>
        refine hmin e ?_
        rw [hsame, ← hash_eq]
        exact h.mem_bucket he
      | inr hlater => exact Nat.le_of_lt (s.rank_lt_of_window (heq ▸ hlater))
    | none =>
      -- no event is in the window
      have hlater : ∀ e ∈ s.contents, w + (k + 1) ≤ s.window e.key.ts := by
        intro e he
        refine Nat.lt_of_le_of_ne (hwindow e he) fun (hsame : w + k = s.window e.key.ts) => ?_
        have hbucket := h.mem_bucket he
        rw [hash_eq, ← hsame] at hbucket
        cases next with
        | none =>
          rw [nextEvent_none hnext] at hbucket
          exact absurd hbucket not_mem_nil
        | some next =>
          obtain ⟨hmem, -, hmin⟩ := h.next_of hnext
          have hwin : s.window next.key.ts = w + k := Nat.le_antisymm
            (hsame ▸ s.window_le_of_rank (hmin e hbucket)) (hwindow _ hmem)
          have htop := (h.lt_windowTop (h.below _ hmem) (hwindow _ hmem)).mpr hwin
          rw [Option.filter_some, if_pos (decide_eq_true htop)] at hfilter
          cases hfilter
      have hmod : ((w + k) % s.nBuckets + 1) % s.nBuckets = (w + (k + 1)) % s.nBuckets := by
        rw [Nat.mod_add_mod]
        rfl
      dsimp only
      rw [hmod, windowTop_succ]
      split
      · next hback =>
        -- every bucket was visited
        have hk : k + 1 = s.nBuckets := by
          rw [hlast] at hback
          have hdvd : s.nBuckets ∣ k + 1 :=
            (Nat.modEq_zero_iff_dvd).mp (Nat.ModEq.add_left_cancel' w hback)
          exact Nat.le_antisymm (by omega) (Nat.le_of_dvd (Nat.succ_pos k) hdvd)
        rw [hk] at hnewer
        have hbound (e : Event) (he : e ∈ s.contents) : ∃ i ev,
            CalendarScheduler.lesser start ((w + k) % s.nBuckets) min next = some (i, ev) ∧
              ev.key.rank ≤ e.key.rank := by
          obtain ⟨j, hj, heq⟩ := exists_window (w := w) (h.hash_lt e.key.ts)
          refine hnewer.least j hj e ?_
          show e ∈ bucketAt s.buckets ((w + j) % s.buckets.length)
          rw [heq]
          exact h.mem_bucket he
        obtain ⟨e, rest, hcons⟩ := exists_cons_of_ne_nil hne
        obtain ⟨i, ev, hmin, -⟩ := hbound e (hcons ▸ mem_cons_self)
        refine ⟨_, rfl, i, ev, hmin, hnewer.next i ev hmin, next_iff.mpr
          ⟨(h.next_of (hnewer.next i ev hmin)).1, fun e' he' => ?_⟩⟩
        obtain ⟨i', ev', hmin', hle⟩ := hbound e' he'
        rw [hmin] at hmin'
        cases hmin'
        exact hle
      · next hgo =>
        have hrounds' : 0 < rounds := by
          refine Nat.pos_of_ne_zero fun hzero => hgo ?_
          rw [hlast, show k + 1 = s.nBuckets by omega, Nat.add_mod_right]
        exact ih (k + 1) _ (by omega) hrounds' hlater hnewer

end Search

/-! ## 5. Taking events and making the buckets anew -/

section Operations

variable {s s' : CalendarScheduler} {ev : Event}

theorem search_ok (hplaced : Placed s) (htimed : Timed s) (start : EventKey)
    (hstart : start.ts = 0xffffffffffffffff) (hne : s.contents ≠ []) :
    ∃ found, s.scan start s.nBuckets s.lastBucket s.bucketTop none = .ok found ∧
      Scanned s found := by
  have hlast : s.lastBucket = s.window s.lastPrio % s.nBuckets := by
    rw [htimed.lastBucket, hash_eq]
  rw [htimed.bucketTop, windowTop_window, hlast]
  refine hplaced.scan hstart hlast hne s.nBuckets 0 none (Nat.zero_add _) hplaced.size
    (fun e he => s.window_le (htimed.ahead e he)) ⟨fun i ev h => ?_, fun j hj => ?_⟩
  · cases h
  · exact absurd hj (Nat.not_lt_zero j)

theorem peekNext_ok (hplaced : Placed s) (htimed : Timed s) (hempty : s.isEmpty = false)
    (hne : s.contents ≠ []) : ∃ ev, s.peekNext = .ok ev ∧ Next s.contents ev := by
  obtain ⟨found, hok, hfound⟩ := search_ok hplaced htimed peekStart rfl hne
  unfold peekNext
  rw [hempty, if_neg Bool.false_ne_true, hok]
  cases found with
  | window i bucketTop next => exact ⟨next, rfl, hfound.2.2.2⟩
  | least min =>
    obtain ⟨i, next, rfl, -, hnext⟩ := hfound
    exact ⟨next, rfl, hnext⟩

/-- `s'` is the calendar without its next event. -/
structure Taken (s s' : CalendarScheduler) (ev : Event) : Prop where
  next : Next s.contents ev
  contents : (ev :: s'.contents).Perm s.contents
  placed : Placed s'
  timed : Timed s'
  lastPrio : s'.lastPrio = ev.key.ts
  qSize : s'.qSize = s.qSize

theorem taken_of (hplaced : Placed s) (hnext : nextEvent s.reverse (bucketAt s.buckets i) = some ev)
    (hmin : Next s.contents ev) (heq : s' = { s.popAt i with
      lastPrio := ev.key.ts
      lastBucket := s.hash ev.key.ts
      bucketTop := (ev.key.ts / s.width + 1) * s.width }) : Taken s s' ev := by
  obtain ⟨hperm, hsub, -⟩ := nextEvent_some hnext
  have hi : i < s.buckets.length := by
    rw [(hplaced.next_of hnext).2.1]
    exact hplaced.hash_lt _
  have hcontents : (ev :: s'.contents).Perm s.contents := by
    rw [heq]
    exact flatten_modify_remove hi hperm
  obtain ⟨hplaced', hhash⟩ := hplaced.modify s' hi hsub (by rw [heq]; rfl)
  refine ⟨hmin, hcontents, hplaced', ⟨fun e he => ?_, ?_, ?_⟩, by rw [heq], by rw [heq]; rfl⟩
  · have hle := (next_iff.mp hmin).2 e (hcontents.subset (mem_cons_of_mem ev he))
    have huid := e.key.uid.isLt
    rw [heq]
    refine le_def.mpr (not_lt.mp fun (hlt : e.key.ts.toNat < ev.key.ts.toNat) => ?_)
    unfold rank at hle
    omega
  · rw [hhash, heq]
  · rw [heq]
    rfl

theorem doRemoveNext_ok (hplaced : Placed s) (htimed : Timed s) (hempty : s.isEmpty = false)
    (hne : s.contents ≠ []) : ∃ s' ev, s.doRemoveNext = .ok (s', ev) ∧ Taken s s' ev := by
  obtain ⟨found, hok, hfound⟩ := search_ok hplaced htimed removeStart rfl hne
  unfold doRemoveNext
  rw [hempty, if_neg Bool.false_ne_true, hok]
  cases found with
  | window i bucketTop next =>
    obtain ⟨hnext, hi, htop, hmin⟩ := hfound
    refine ⟨_, next, rfl, taken_of hplaced hnext hmin ?_⟩
    rw [htop, windowTop_window, ← hi]
  | least min =>
    obtain ⟨i, next, rfl, hnext, hmin⟩ := hfound
    refine ⟨_, next, ?_, taken_of hplaced hnext hmin rfl⟩
    dsimp only [bind, Except.bind]
    rw [hnext]
    rfl

theorem gather_ok : ∀ (n : Nat) (s : CalendarScheduler), Placed s → Timed s → s.isEmpty = false →
    n ≤ s.contents.length → ∃ s' samples, gather n s = .ok (s', samples) ∧ Placed s' ∧
      (samples ++ s'.contents).Perm s.contents ∧ s'.qSize = s.qSize := by
  intro n
  induction n with
  | zero => exact fun s hplaced _ _ _ => ⟨s, [], rfl, hplaced, .refl _, rfl⟩
  | succ n ih =>
    intro s hplaced htimed hempty hn
    have hne : s.contents ≠ [] := ne_nil_of_length_pos (Nat.zero_lt_of_lt hn)
    obtain ⟨s₁, ev, hok, htaken⟩ := doRemoveNext_ok hplaced htimed hempty hne
    have hempty₁ : s₁.isEmpty = false := by
      unfold isEmpty
      rw [htaken.qSize]
      exact hempty
    have hn₁ : n ≤ s₁.contents.length := by
      have hlen := htaken.contents.length_eq
      rw [length_cons] at hlen
      omega
    obtain ⟨s₂, samples, hgather, hplaced₂, hperm, hqSize⟩ :=
      ih s₁ htaken.placed htaken.timed hempty₁ hn₁
    refine ⟨s₂, ev :: samples, ?_, hplaced₂, (hperm.cons ev).trans htaken.contents,
      hqSize.trans htaken.qSize⟩
    unfold gather
    rw [hok]
    show ((gather n s₁).bind fun result => _) = _
    rw [hgather]
    rfl

/-- What the insertion of events leaves as it is. -/
structure Filled (s s' : CalendarScheduler) : Prop where
  width : s'.width = s.width
  nBuckets : s'.nBuckets = s.nBuckets
  lastBucket : s'.lastBucket = s.lastBucket
  bucketTop : s'.bucketTop = s.bucketTop
  lastPrio : s'.lastPrio = s.lastPrio
  qSize : s'.qSize = s.qSize

theorem filled_doInsert (s : CalendarScheduler) (ev : Event) : Filled s (s.doInsert ev) :=
  ⟨rfl, length_modify .., rfl, rfl, rfl, rfl⟩

theorem Filled.trans {s'' : CalendarScheduler} (h : Filled s s') (h' : Filled s' s'') :
    Filled s s'' :=
  ⟨h'.width.trans h.width, h'.nBuckets.trans h.nBuckets, h'.lastBucket.trans h.lastBucket,
    h'.bucketTop.trans h.bucketTop, h'.lastPrio.trans h.lastPrio, h'.qSize.trans h.qSize⟩

theorem Filled.timed (h : Filled s s') (htimed : Timed s)
    (hahead : ∀ e ∈ s'.contents, s.lastPrio ≤ e.key.ts) : Timed s' := by
  refine ⟨h.lastPrio ▸ hahead, ?_, ?_⟩
  · unfold hash
    rw [h.lastBucket, h.width, h.nBuckets, h.lastPrio]
    exact htimed.lastBucket
  · rw [h.bucketTop, h.lastPrio, h.width]
    exact htimed.bucketTop

theorem foldl_doInsert (evs : List Event) : ∀ s : CalendarScheduler, Placed s →
    (∀ ev ∈ evs, ev.key.ts.toNat < 2 ^ 63) → Placed (evs.foldl doInsert s) ∧
      (evs.foldl doInsert s).contents.Perm (evs ++ s.contents) ∧
        Filled s (evs.foldl doInsert s) := by
  induction evs with
  | nil => exact fun s hplaced _ => ⟨hplaced, .refl _, rfl, rfl, rfl, rfl, rfl, rfl⟩
  | cons ev evs ih =>
    intro s hplaced hbelow
    obtain ⟨hev, hevs⟩ := forall_mem_cons.mp hbelow
    obtain ⟨hplaced₁, hperm₁⟩ := hplaced.doInsert hev
    obtain ⟨hplaced', hperm', hfilled⟩ := ih (s.doInsert ev) hplaced₁ hevs
    refine ⟨hplaced', ?_, (filled_doInsert s ev).trans hfilled⟩
    exact hperm'.trans ((hperm₁.append_left evs).trans perm_middle)

/-- The count is right. -/
structure Inv (s : CalendarScheduler) : Prop where
  placed : Placed s
  timed : Timed s
  qSize : s.qSize.toNat = s.contents.length

theorem Inv.isEmpty (h : Inv s) : s.isEmpty = s.contents.isEmpty := by
  unfold CalendarScheduler.isEmpty
  rw [Bool.eq_iff_iff, List.isEmpty_iff, ← length_eq_zero_iff, ← h.qSize, decide_eq_true_iff,
    ← BitVec.toNat_inj]
  rfl

theorem Inv.isEmpty_false (h : Inv s) (hne : s.contents ≠ []) : s.isEmpty = false := by
  rw [h.isEmpty, isEmpty_eq_false_iff]
  exact hne

theorem nSamples_le (s : CalendarScheduler) : s.nSamples ≤ s.qSize.toNat := by
  unfold nSamples
  dsimp only
  split
  · split
    · omega
    · exact le_refl _
  · split
    · omega
    · omega

theorem widthOf_pos (samples : List Event) : 0 < (widthOf samples).toNat := by
  unfold widthOf
  dsimp only
  split
  · exact one_pos
  · next hnot => exact BitVec.not_lt.mp hnot

/-- The events stay in the calendar, and the place of the last one as it was. -/
theorem calculateNewWidth_ok (h : Inv s) : ∃ s' newWidth, s.calculateNewWidth = .ok (s', newWidth) ∧
    0 < newWidth.toNat ∧ s'.contents.Perm s.contents ∧ s'.lastPrio = s.lastPrio ∧
      s'.qSize = s.qSize := by
  unfold calculateNewWidth
  split
  · exact ⟨s, 1, rfl, one_pos, .refl _, rfl, rfl⟩
  · next hsize =>
    have hempty : s.isEmpty = false := by
      refine h.isEmpty_false (ne_nil_of_length_pos ?_)
      rw [← h.qSize]
      omega
    obtain ⟨s₁, samples, hgather, hplaced, hperm, hqSize⟩ :=
      gather_ok s.nSamples s h.placed h.timed hempty (h.qSize ▸ s.nSamples_le)
    have hbelow : ∀ ev ∈ samples, ev.key.ts.toNat < 2 ^ 63 :=
      fun ev hev => h.placed.below ev (hperm.subset (mem_append_left _ hev))
    obtain ⟨-, hback, hfilled⟩ := foldl_doInsert samples s₁ hplaced hbelow
    rw [hgather]
    exact ⟨_, _, rfl, widthOf_pos samples, hback.trans hperm, rfl, hfilled.qSize.trans hqSize⟩

theorem placed_init (s : CalendarScheduler) {nBuckets : Nat} (hsize : 0 < nBuckets)
    {width : BitVec 64} (hwidth : 0 < width.toNat) (startPrio : BitVec 64) :
    Placed (s.init nBuckets width startPrio) ∧ (s.init nBuckets width startPrio).contents = [] ∧
      Timed (s.init nBuckets width startPrio) := by
  have hlen : (s.init nBuckets width startPrio).nBuckets = nBuckets := length_replicate
  have hbucket (i : Nat) : bucketAt (s.init nBuckets width startPrio).buckets i = [] :=
    bucketAt_replicate nBuckets i
  have hnone (e : Event) : e ∉ (s.init nBuckets width startPrio).contents := by
    intro he
    obtain ⟨i, hi⟩ := mem_contents.mp he
    rw [hbucket] at hi
    exact absurd hi not_mem_nil
  refine ⟨⟨hwidth, hlen.symm ▸ hsize, fun i e he => ?_, fun i => ?_, fun e he => ?_⟩,
    eq_nil_iff_forall_not_mem.mpr hnone, fun e he => absurd he (hnone e), ?_, rfl⟩
  · rw [hbucket] at he
    exact absurd he not_mem_nil
  · rw [hbucket]
    exact .nil
  · exact absurd he (hnone e)
  · unfold hash
    rw [hlen]
    rfl

theorem resize_ok (h : Inv s) {newSize : Nat} (hsize : 0 < newSize) :
    ∃ s', s.resize newSize = .ok s' ∧ Inv s' ∧ s'.contents.Perm s.contents ∧
      s'.lastPrio = s.lastPrio := by
  obtain ⟨s₁, newWidth, hok, hwidth, hperm, hlast, hqSize⟩ := calculateNewWidth_ok h
  obtain ⟨hplaced, hnone, htimed⟩ := placed_init s₁ hsize hwidth s₁.lastPrio
  have hbelow : ∀ ev ∈ s₁.buckets.flatten, ev.key.ts.toNat < 2 ^ 63 :=
    fun ev hev => h.placed.below ev (hperm.subset hev)
  obtain ⟨hplaced', hall, hfilled⟩ := foldl_doInsert s₁.buckets.flatten _ hplaced hbelow
  rw [hnone, append_nil] at hall
  have hcontents : (s₁.doResize newSize newWidth).contents.Perm s.contents := hall.trans hperm
  refine ⟨s₁.doResize newSize newWidth, ?_, ⟨hplaced', hfilled.timed htimed fun e he => ?_, ?_⟩,
    hcontents, hfilled.lastPrio.trans hlast⟩
  · unfold resize
    rw [hok]
    rfl
  · show s₁.lastPrio ≤ e.key.ts
    rw [hlast]
    exact h.timed.ahead e (hcontents.subset he)
  · rw [hcontents.length_eq, ← h.qSize]
    exact congrArg toNat (hfilled.qSize.trans hqSize)

theorem resizeUp_ok (h : Inv s) : ∃ s', s.resizeUp = .ok s' ∧ Inv s' ∧
    s'.contents.Perm s.contents ∧ s'.lastPrio = s.lastPrio := by
  unfold resizeUp
  split
  · exact resize_ok h (Nat.mul_pos h.placed.size Nat.two_pos)
  · exact ⟨s, rfl, h, .refl _, rfl⟩

theorem resizeDown_ok (h : Inv s) : ∃ s', s.resizeDown = .ok s' ∧ Inv s' ∧
    s'.contents.Perm s.contents ∧ s'.lastPrio = s.lastPrio := by
  unfold resizeDown
  split
  · next hlt => exact resize_ok h (Nat.zero_lt_of_lt hlt)
  · exact ⟨s, rfl, h, .refl _, rfl⟩

section

variable (h : Inv s) (hlast : s.lastPrio ≤ ev.key.ts) (hbelow : ev.key.ts.toNat < 2 ^ 63)
  (hroom : s.contents.length + 1 < 2 ^ 32)
include h hlast hbelow hroom

theorem inserted_inv : Inv { s.doInsert ev with qSize := s.qSize + 1 } := by
  obtain ⟨hplaced, hperm⟩ := h.placed.doInsert hbelow
  have htimed : Timed (s.doInsert ev) := by
    refine (filled_doInsert s ev).timed h.timed fun e he => ?_
    cases mem_cons.mp (hperm.subset he) with
    | inl heq => exact heq ▸ hlast
    | inr hmem => exact h.timed.ahead e hmem
  refine ⟨{ hplaced with }, { htimed with }, ?_⟩
  show (s.qSize + 1).toNat = (s.doInsert ev).contents.length
  rw [hperm.length_eq, length_cons, ← h.qSize, BitVec.toNat_add]
  exact Nat.mod_eq_of_lt (h.qSize ▸ hroom)

theorem insert_ok : ∃ s', s.insert ev = .ok s' ∧ Inv s' ∧
      s'.contents.Perm (ev :: s.contents) ∧ s'.lastPrio = s.lastPrio := by
  obtain ⟨s', hok, hinv, hperm, hprio⟩ := resizeUp_ok (inserted_inv h hlast hbelow hroom)
  exact ⟨s', hok, hinv, hperm.trans (h.placed.doInsert hbelow).2, hprio⟩

end

theorem toNat_pred {q : BitVec 32} (h : q.toNat = n + 1) : (q - 1).toNat = n := by
  have hq := q.isLt
  have hone : (1 : BitVec 32).toNat = 1 := rfl
  rw [BitVec.toNat_sub, hone]
  omega

theorem removeNext_ok (h : Inv s) (hne : s.contents ≠ []) : ∃ s' ev, s.removeNext = .ok (s', ev) ∧
    Next s.contents ev ∧ Inv s' ∧ (ev :: s'.contents).Perm s.contents ∧
      s'.lastPrio = ev.key.ts := by
  have hempty := h.isEmpty_false hne
  obtain ⟨s₁, ev, hok, htaken⟩ := doRemoveNext_ok h.placed h.timed hempty hne
  have hlen := htaken.contents.length_eq
  rw [length_cons, ← h.qSize, ← htaken.qSize] at hlen
  have hinv : Inv { s₁ with qSize := s₁.qSize - 1 } :=
    ⟨{ htaken.placed with }, { htaken.timed with }, toNat_pred hlen.symm⟩
  obtain ⟨s', hdown, hinv', hperm, hprio⟩ := resizeDown_ok hinv
  refine ⟨s', ev, ?_, htaken.next, hinv', (hperm.cons ev).trans htaken.contents,
    hprio.trans htaken.lastPrio⟩
  unfold removeNext
  rw [hempty, if_neg Bool.false_ne_true, hok]
  show (({ s₁ with qSize := s₁.qSize - 1 } : CalendarScheduler).resizeDown.bind fun result => _) = _
  rw [hdown]
  rfl

theorem remove_ok (h : Inv s) (hmem : ev ∈ s.contents)
    (hunique : ∀ e ∈ s.contents, e.key.uid = ev.key.uid → e = ev) : ∃ s', s.remove ev = .ok s' ∧
      Inv s' ∧ (ev :: s'.contents).Perm s.contents ∧ s'.lastPrio = s.lastPrio := by
  have hbucket := h.placed.mem_bucket hmem
  have hi := h.placed.hash_lt ev.key.ts
  obtain ⟨e, before, after, -, he, hsplit, herase⟩ := exists_of_eraseP
    (p := fun e : Event => e.key.uid = ev.key.uid) hbucket (decide_eq_true rfl)
  have hself : e = ev := by
    refine hunique e (mem_contents.mpr ⟨s.hash ev.key.ts, ?_⟩) (of_decide_eq_true he)
    rw [hsplit]
    exact mem_append_right _ mem_cons_self
  have htaken : (ev :: (bucketAt s.buckets (s.hash ev.key.ts)).eraseP
      fun e => e.key.uid = ev.key.uid).Perm (bucketAt s.buckets (s.hash ev.key.ts)) := by
    rw [herase, hsplit, hself]
    exact perm_middle.symm
  let s₁ : CalendarScheduler := { s with
    buckets := s.buckets.modify (s.hash ev.key.ts) (List.eraseP fun e => e.key.uid = ev.key.uid)
    qSize := s.qSize - 1 }
  have hcontents : (ev :: s₁.contents).Perm s.contents := flatten_modify_remove hi htaken
  obtain ⟨hplaced, hhash⟩ := h.placed.modify s₁ hi (eraseP_sublist ..) rfl
  have hinv : Inv s₁ := by
    refine ⟨hplaced, ⟨fun e he => ?_, ?_, h.timed.bucketTop⟩, toNat_pred ?_⟩
    · exact h.timed.ahead e (hcontents.subset (mem_cons_of_mem ev he))
    · rw [hhash]
      exact h.timed.lastBucket
    · rw [h.qSize, ← hcontents.length_eq]
      rfl
  obtain ⟨s', hdown, hinv', hperm, hprio⟩ := resizeDown_ok hinv
  refine ⟨s', ?_, hinv', (hperm.cons ev).trans hcontents, hprio⟩
  unfold remove
  rw [h.isEmpty_false (ne_nil_of_mem hmem), if_neg Bool.false_ne_true]
  dsimp only
  split
  · next hnone => exact absurd (decide_eq_true rfl) (find?_eq_none.mp hnone ev hbucket)
  · next found hfound =>
    have huid := find?_some hfound
    have heq : found = ev := hunique found
      (mem_contents.mpr ⟨_, mem_of_find?_eq_some hfound⟩) (of_decide_eq_true huid)
    rw [heq, if_pos rfl]
    exact hdown

end Operations

/-! ## 6. Runs -/

/-- The calendar and its ledger agree. -/
structure Kept (x : CalendarScheduler × Ledger) : Prop where
  inv : Inv x.1
  contents : x.1.contents.Perm x.2.pending
  last : x.1.lastPrio = x.2.last

section Runs

variable {x x' : CalendarScheduler × Ledger}

theorem kept_initial (reverse : Bool) : Kept (initial reverse, ⟨[], 0⟩) := by
  obtain ⟨hplaced, hnone, htimed⟩ := placed_init ⟨reverse, [], 0, 0, 0, 0, 0⟩ Nat.two_pos
    (show 0 < (1 : BitVec 64).toNat from one_pos) 0
  exact ⟨⟨hplaced, htimed, rfl⟩, .refl _, rfl⟩

theorem Kept.ne_nil (h : Kept x) (hne : x.2.pending ≠ []) : x.1.contents ≠ [] := fun hnil =>
  hne (nil_perm.mp (hnil ▸ h.contents))

theorem Kept.insert (h : Kept x) {ev : Event} (htimely : Timely x (.insert ev))
    (hroom : Counted x (.insert ev)) : ∃ s', x.1.insert ev = .ok s' ∧ Inv s' ∧
      s'.contents.Perm (ev :: x.1.contents) ∧ s'.lastPrio = x.1.lastPrio :=
  insert_ok h.inv (h.last ▸ htimely.1) htimely.2 (h.contents.length_eq ▸ hroom)

theorem Kept.remove (h : Kept x) {ev : Event} (htimely : Timely x (.remove ev)) :
    ∃ s', x.1.remove ev = .ok s' ∧ Inv s' ∧ (ev :: s'.contents).Perm x.1.contents ∧
      s'.lastPrio = x.1.lastPrio :=
  remove_ok h.inv (h.contents.mem_iff.mpr htimely.1)
    fun e he => htimely.2 e (h.contents.mem_iff.mp he)

theorem perm_erase {list list' pending : List Event} {ev : Event} (h : (ev :: list').Perm list)
    (hpending : list.Perm pending) : list'.Perm (pending.erase ev) := by
  have hboth := (h.trans hpending).erase ev
  rw [erase_cons_head] at hboth
  exact hboth

theorem Kept.step (h : Kept x) {operation : Operation} (htimely : Timely x operation)
    (hroom : Counted x operation) (hstep : step x operation = .ok x') : Kept x' := by
  obtain ⟨⟨s', result⟩, hok, rfl⟩ := except_map_eq_ok.mp hstep
  cases operation with
  | insert ev =>
    obtain ⟨s₁, hinsert, hinv, hperm, hprio⟩ := h.insert htimely hroom
    obtain ⟨s₂, hok', heq⟩ := except_map_eq_ok.mp hok
    rw [hinsert] at hok'
    cases hok'
    cases heq
    exact ⟨hinv, hperm.trans (h.contents.cons ev), hprio.trans h.last⟩
  | isEmpty =>
    cases hok
    exact ⟨h.inv, h.contents, h.last⟩
  | peekNext =>
    obtain ⟨ev, -, heq⟩ := except_map_eq_ok.mp hok
    cases heq
    exact ⟨h.inv, h.contents, h.last⟩
  | removeNext =>
    obtain ⟨⟨s₁, ev⟩, hok', heq⟩ := except_map_eq_ok.mp hok
    have hne : x.1.contents ≠ [] := by
      intro hnil
      have hempty : x.1.isEmpty = true := h.inv.isEmpty.trans (List.isEmpty_iff.mpr hnil)
      unfold CalendarScheduler.removeNext at hok'
      rw [hempty, if_pos rfl] at hok'
      cases hok'
    obtain ⟨s₂, ev₂, hremove, -, hinv, hperm, hprio⟩ := removeNext_ok h.inv hne
    rw [hremove] at hok'
    cases hok'
    cases heq
    exact ⟨hinv, perm_erase hperm h.contents, hprio⟩
  | remove ev =>
    obtain ⟨s₁, hremove, hinv, hperm, hprio⟩ := h.remove htimely
    obtain ⟨s₂, hok', heq⟩ := except_map_eq_ok.mp hok
    rw [hremove] at hok'
    cases hok'
    cases heq
    exact ⟨hinv, perm_erase hperm h.contents, hprio.trans h.last⟩

theorem Kept.isQueue (h : Kept x) : IsQueue x where
  contents := h.contents
  isEmpty := h.inv.isEmpty.trans h.contents.isEmpty_eq
  peekNext := by
    intro hne
    obtain ⟨ev, hok, hnext⟩ := peekNext_ok h.inv.placed h.inv.timed
      (h.inv.isEmpty_false (h.ne_nil hne)) (h.ne_nil hne)
    exact ⟨ev, hok, hnext.perm h.contents⟩
  removeNext := by
    intro hne
    obtain ⟨s', ev, hok, hnext, -⟩ := removeNext_ok h.inv (h.ne_nil hne)
    exact ⟨s', ev, hok, hnext.perm h.contents⟩
  insert := by
    intro ev htimely hroom
    obtain ⟨s', hok, -⟩ := h.insert htimely hroom
    exact ⟨s', hok⟩
  remove := by
    intro ev htimely
    obtain ⟨s', hok, -⟩ := h.remove htimely
    exact ⟨s', hok⟩

/-- In every run, in both orders of the buckets, as long as there are fewer than `2 ^ 32` events. -/
theorem calendar_of_run (reverse : Bool) {operations : List Operation}
    (hrun : FallibleRun step (fun x operation => Timely x operation ∧ Counted x operation)
      (initial reverse, ⟨[], 0⟩) operations x) : IsQueue x := by
  have hkept : Kept x := hrun.invariant Kept
    (fun _ _ _ h hguard hstep => h.step hguard.1 hguard.2 hstep) (kept_initial reverse)
  exact hkept.isQueue

end Runs

/-- An event at time 0 with a uid. -/
def numbered (n : Nat) : Event := ⟨n, ⟨0, BitVec.ofNat 32 n, 0⟩⟩

def far (n : Nat) : Event := ⟨n, ⟨0x7ffffffffffffff0, BitVec.ofNat 32 n, 0⟩⟩

/-- The fifth event doubles the buckets. -/
def insertFive : List Operation :=
  [.insert (numbered 4), .insert (far 5), .insert (numbered 6), .insert (far 7), .insert (far 8),
    .peekNext, .removeNext, .remove (far 7)]

theorem calendar_of_run_five :
    IsQueue (⟨true, [[far 8, far 5, numbered 6], [], [], []], 1, 0, 1, 0, 3⟩,
      ⟨[far 8, numbered 6, far 5], 0⟩) :=
  @calendar_of_run _ true insertFive <|
    .cons (by decide) rfl <| .cons (by decide) rfl <| .cons (by decide) rfl <|
    .cons (by decide) rfl <| .cons (by decide) rfl <| .cons (by decide) rfl <|
    .cons (by decide) rfl <| .cons (by decide) rfl (.nil _)

/-- The first `n` events. -/
def firstEvents : Nat → List Event
  | 0 => []
  | n + 1 => numbered n :: firstEvents n

theorem firstEvents_uid (hn : n ≤ 2 ^ 32) : (∀ e ∈ firstEvents n, e.key.uid.toNat < n) ∧
      (firstEvents n).Pairwise fun a b => a.key.uid ≠ b.key.uid := by
  induction n with
  | zero => exact ⟨forall_mem_nil _, .nil⟩
  | succ n ih =>
    obtain ⟨hless, hdistinct⟩ := ih (Nat.le_of_succ_le hn)
    have huid : (numbered n).key.uid.toNat = n := Nat.mod_eq_of_lt hn
    constructor
    · refine forall_mem_cons.mpr ⟨Nat.lt_succ_of_le (le_of_eq huid), fun e he => ?_⟩
      exact Nat.lt_succ_of_lt (hless e he)
    · refine pairwise_cons.mpr ⟨fun e he heq => ?_, hdistinct⟩
      have hlt := hless e he
      rw [← heq, huid] at hlt
      exact lt_irrefl n hlt

theorem firstEvents_length (n : Nat) : (firstEvents n).length = n := by
  induction n with
  | zero => rfl
  | succ n ih => exact congrArg Nat.succ ih

/-- The calendar with the first `n` events. -/
theorem firstEvents_run (hn : n < 2 ^ 32) : ∃ operations s,
    FallibleRun step Timely (initial false, ⟨[], 0⟩) operations (s, ⟨firstEvents n, 0⟩) ∧
      Kept (s, ⟨firstEvents n, 0⟩) := by
  induction n with
  | zero => exact ⟨[], _, .nil _, kept_initial false⟩
  | succ n ih =>
    obtain ⟨operations, s, hrun, hkept⟩ := ih (Nat.lt_of_succ_lt hn)
    have htimely : Timely (s, ⟨firstEvents n, 0⟩) (.insert (numbered n)) :=
      ⟨BitVec.le_refl _, Nat.two_pow_pos 63⟩
    have hroom : Counted (s, ⟨firstEvents n, 0⟩) (.insert (numbered n)) := by
      show (firstEvents n).length + 1 < 2 ^ 32
      rw [firstEvents_length]
      exact hn
    obtain ⟨s', hinsert, -⟩ := hkept.insert htimely hroom
    have hstep : step (s, ⟨firstEvents n, 0⟩) (.insert (numbered n)) =
        .ok (s', ⟨firstEvents (n + 1), 0⟩) := by
      show ((s.insert (numbered n)).map _).map _ = _
      rw [hinsert]
      rfl
    exact ⟨operations ++ [.insert (numbered n)], s', hrun.append (.cons htimely hstep (.nil _)),
      hkept.step htimely hroom hstep⟩

/-- With `2 ^ 32` events, no two of which have the same uid, the calendar says that it is empty and
the next event cannot be taken. -/
theorem full_is_empty : ∃ operations s ledger,
    FallibleRun step Timely (initial false, ⟨[], 0⟩) operations (s, ledger) ∧
    ledger.pending.Pairwise (fun a b => a.key.uid ≠ b.key.uid) ∧ ledger.pending.length = 2 ^ 32 ∧
    s.isEmpty = true ∧ s.peekNext = .error .invalid ∧ s.removeNext = .error .invalid := by
  obtain ⟨n, hn⟩ : ∃ n, n + 1 = 2 ^ 32 := ⟨2 ^ 32 - 1, rfl⟩
  obtain ⟨operations, s, hrun, hkept⟩ := firstEvents_run (Nat.lt_of_succ_le (Nat.le_of_eq hn))
  have htimely : Timely (s, ⟨firstEvents n, 0⟩) (.insert (numbered n)) :=
    ⟨BitVec.le_refl _, Nat.two_pow_pos 63⟩
  have hqSize : s.qSize + 1 = 0 := by
    have hcount := hkept.inv.qSize
    rw [hkept.contents.length_eq, firstEvents_length] at hcount
    apply BitVec.eq_of_toNat_eq
    rw [BitVec.toNat_add, hcount, show (1 : BitVec 32).toNat = 1 from rfl, hn]
    rfl
  let s' : CalendarScheduler := { s.doInsert (numbered n) with qSize := s.qSize + 1 }
  have hempty : s'.isEmpty = true := decide_eq_true hqSize
  have hinsert : s.insert (numbered n) = .ok s' := by
    refine if_neg ?_
    rw [show s'.qSize.toNat = 0 from congrArg BitVec.toNat hqSize,
      decide_eq_false (Nat.not_lt_zero _)]
    exact Bool.false_ne_true
  have hstep : step (s, ⟨firstEvents n, 0⟩) (.insert (numbered n)) =
      .ok (s', ⟨firstEvents (n + 1), 0⟩) := by
    show ((s.insert (numbered n)).map _).map _ = _
    rw [hinsert]
    rfl
  refine ⟨_, s', _, hrun.append (.cons htimely hstep (.nil _)),
    (firstEvents_uid (Nat.le_of_eq hn)).2, (firstEvents_length (n + 1)).trans hn, hempty, ?_, ?_⟩
  · unfold peekNext
    rw [hempty, if_pos rfl]
  · unfold removeNext
    rw [hempty, if_pos rfl]

end CalendarScheduler

end MoeJit.Scheduler
