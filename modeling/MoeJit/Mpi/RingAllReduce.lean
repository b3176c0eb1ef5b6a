import MoeJit.Lib.FifoNet
import MoeJit.Lib.Words
import MoeJit.Mpi.Communicator
import MoeJit.Mpi.RingPartitions

/-!
# Ring all-reduce

`MPICommunicator::RingAllReduce`: the members stand in a ring in the order of
their ranks, and the data is cut into one partition for each. In the first loop
(scatter-reduce) each member sends a partition to the member before it and
combines the one it receives from the member after it; in the second
(all-gather) it overwrites. The source sends placeholders of the right sizes;
here a message carries the value of the partition that it stands for.

A message is a fake vector of batch elements: eight bytes for the count, and the
elements. Nothing in the stream separates messages. A partition without elements
is received with size 0, which takes whatever has arrived.

1. `sync_scatter`, `sync_gather`: what a member holds before each step.
2. `ring_all_reduce_complete`: where no partition is empty, in every run each
   message is read in the step it was sent in, for its partition and with its
   size, and every member ends with the contributions of all members to all
   partitions.
3. `starves_of_empty`: with an empty partition no member ever comes to the end.
-/

namespace MoeJit.Mpi

open FifoNet List Words
open Nat (add_mod_right mod_add_mod mod_eq_of_lt mod_lt)

/-! ## 1. The ring -/

namespace Group

variable (G : Group)

/-- The number of smaller ranks. -/
def index (r : G.Member) : Nat := G.ranks.countP fun item => item < r.val

/-- `ranks_sorted[k % GroupSize()]`. -/
def nodeAt (k : Nat) : G.Member :=
  ⟨G.ranks.get ⟨k % G.size, Nat.mod_lt k size_pos⟩, List.get_mem _ _⟩

def sendTarget (r : G.Member) : G.Member := G.nodeAt (G.index r + G.size - 1)

def receiveTarget (r : G.Member) : G.Member := G.nodeAt (G.index r + 1)

variable {G}

theorem countP_lt_get {l : List Nat} (h : l.Pairwise (· < ·)) (k : Fin l.length) :
    (l.countP fun item => item < l.get k) = k := by
  induction l with
  | nil => exact k.elim0
  | cons x l ih =>
    obtain ⟨hhead, htail⟩ := pairwise_cons.mp h
    refine Fin.cases ?_ (fun k => ?_) k
    · refine countP_eq_zero.mpr fun item hitem => ?_
      rcases mem_cons.mp hitem with rfl | hrest
      · exact fun hlt => lt_irrefl _ (of_decide_eq_true hlt)
      · exact fun hlt => Nat.lt_asymm (hhead item hrest) (of_decide_eq_true hlt)
    · have hlt : x < l.get k := hhead _ (get_mem _ _)
      have hrest := ih htail k
      simp only [get_eq_getElem] at hlt hrest
      simp [hlt, hrest]

theorem index_nodeAt (k : Nat) : G.index (G.nodeAt k) = k % G.size :=
  countP_lt_get G.sorted ⟨k % G.size, mod_lt k size_pos⟩

theorem nodeAt_mod (k : Nat) : G.nodeAt (k % G.size) = G.nodeAt k := by
  simp only [nodeAt, Nat.mod_mod]

theorem nodeAt_index (r : G.Member) : G.nodeAt (G.index r) = r := by
  obtain ⟨k, hk⟩ := get_of_mem r.2
  have hr : r = G.nodeAt k := Subtype.ext (by
    simp only [nodeAt, mod_eq_of_lt (show (k : Nat) < G.size from k.isLt)]
    exact hk.symm)
  rw [hr, index_nodeAt, nodeAt_mod]

theorem index_lt (r : G.Member) : G.index r < G.size := by
  rw [← nodeAt_index r, index_nodeAt]
  exact mod_lt _ size_pos

theorem index_receiveTarget (r : G.Member) :
    G.index (G.receiveTarget r) = (G.index r + 1) % G.size := index_nodeAt _

theorem sendTarget_receiveTarget (r : G.Member) : G.sendTarget (G.receiveTarget r) = r := by
  have hpos : 0 < G.size := size_pos
  have hindex : (G.index (G.receiveTarget r) + G.size - 1) % G.size = G.index r := by
    rw [index_receiveTarget, Nat.add_sub_assoc hpos, mod_add_mod,
      show G.index r + 1 + (G.size - 1) = G.index r + G.size by omega, add_mod_right,
      mod_eq_of_lt (index_lt r)]
  rw [sendTarget, ← nodeAt_mod, hindex, nodeAt_index]

theorem receiveTarget_sendTarget (r : G.Member) : G.receiveTarget (G.sendTarget r) = r := by
  have hpos : 0 < G.size := size_pos
  have hindex : (G.index (G.sendTarget r) + 1) % G.size = G.index r := by
    rw [sendTarget, index_nodeAt, mod_add_mod,
      show G.index r + G.size - 1 + 1 = G.index r + G.size by omega, add_mod_right,
      mod_eq_of_lt (index_lt r)]
  rw [receiveTarget, ← nodeAt_mod, hindex, nodeAt_index]

theorem eq_sendTarget_iff {r q : G.Member} : r = G.sendTarget q ↔ q = G.receiveTarget r := by
  constructor
  · rintro rfl
    exact (receiveTarget_sendTarget q).symm
  · rintro rfl
    exact (sendTarget_receiveTarget r).symm

end Group

/-! ## 2. Model -/

/-- An iteration of one of the two loops. -/
inductive RingStep
  | scatter (i : Nat)
  | gather (i : Nat)

/-- A byte of a message, with the step, the partition, the number of elements and
the value that the message was sent with. -/
structure RingByte (M : Type*) where
  step : RingStep
  partition : Nat
  size : Nat
  value : M

def sendPartitionIndex (groupSize index : Nat) : RingStep → Nat
  | .scatter i => (index + i) % groupSize
  | .gather i => (index + i + groupSize - 1) % groupSize

def receivePartitionIndex (groupSize index : Nat) : RingStep → Nat
  | .scatter i => (index + i + 1) % groupSize
  | .gather i => (index + i) % groupSize

variable {M : Type*} [AddCommMonoid M]

/-- The value of a partition after a message for it. -/
def RingStep.apply : RingStep → M → M → M
  | .scatter _, held, received => held + received
  | .gather _, _, received => received

/-- The arguments of a call: the number of elements, the bytes of one, and what a
size becomes that is converted from `double` to `std::size_t`. -/
structure RingCall where
  size : Nat
  elementSize : Nat
  convert : ℚ → Nat
  convert_natCast : ∀ n : Nat, n < 2 ^ 64 → convert n = n

namespace RingCall

variable (c : RingCall) (groupSize : Nat)

/-- The number of elements in a message for partition `k`. -/
def count (k : Nat) : Nat := c.convert (messageSize c.size groupSize k)

/-- The size that the reader asks for behind the count, and that the writer makes a packet of. -/
def bytes (k : Nat) : Nat := u64 (c.count groupSize k * c.elementSize)

/-- The bytes of a message: a packet has a 32-bit size. -/
def length (k : Nat) : Nat := 8 + u32 (c.bytes groupSize k)

/-- `CoroutineSocket::receive` with a size of 0 takes whatever has arrived. One of 2^32 or more
stops at its size converted to 32 bits, and is done with that when another byte is there. -/
def tail (k : Nat) : Tail :=
  if c.bytes groupSize k = 0 then .takeRest
  else if c.bytes groupSize k < 2 ^ 32 then .stop
  else .await

end RingCall

/-- `RingAllReduce` of one member, which holds a value for every partition. -/
def ringAllReduce (G : Group) (c : RingCall) : Algo G.Member (RingByte M) (Nat → M) RingStep where
  out r held step q :=
    if q = G.sendTarget r then
      let k := sendPartitionIndex G.size (G.index r) step
      replicate (c.length G.size k) ⟨step, k, c.count G.size k, held k⟩
    else []
  need r _ step q :=
    if q = G.receiveTarget r then
      some (c.length G.size (receivePartitionIndex G.size (G.index r) step))
    else none
  next r held step got :=
    let k := receivePartitionIndex G.size (G.index r) step
    match got (G.receiveTarget r) with
    | [] => held
    | b :: _ => Function.update held k (step.apply (held k) b.value)
  tail r _ step q :=
    if q = G.receiveTarget r then c.tail G.size (receivePartitionIndex G.size (G.index r) step)
    else .stop

/-- The two loops. -/
def ringSteps (n : Nat) : List RingStep :=
  (List.range (n - 1)).map .scatter ++ (List.range (n - 1)).map .gather

/-- A call of `RingAllReduce` by all members of a group. -/
def ringCall (G : Group) (c : RingCall) (input : G.Member → Nat → M) :
    Except String (Net G.Member (RingByte M) (Nat → M) RingStep) :=
  if c.size < G.size then
    .error "ring all reduce size must be no less than group size"
  else .ok (Net.init (fun _ => ringSteps G.size) input)

def ringSystem (G : Group) (c : RingCall) (input : G.Member → Nat → M) :
    System G.Member (RingByte M) (Nat → M) RingStep where
  algo := ringAllReduce G c
  prog _ := ringSteps G.size
  start := input
  lab
    | .scatter i => i
    | .gather i => G.size - 1 + i
  bound := G.size - 1 + (G.size - 1)
  sorted _ := by
    refine List.pairwise_append.mpr ⟨?_, ?_, ?_⟩
    · exact List.pairwise_map.mpr List.pairwise_lt_range
    · exact List.pairwise_map.mpr
        (List.pairwise_lt_range.imp fun h => Nat.add_lt_add_left h _)
    · simp only [List.mem_map, List.mem_range]
      rintro _ ⟨i, hi, rfl⟩ _ ⟨j, -, rfl⟩
      exact Nat.lt_add_right j hi
  lab_lt _ step hstep := by
    rcases List.mem_append.mp hstep with h | h <;>
      obtain ⟨i, hi, rfl⟩ := List.mem_map.mp h
    · exact Nat.lt_add_right _ (List.mem_range.mp hi)
    · exact Nat.add_lt_add_left (List.mem_range.mp hi) _

/-! ## 3. The run in lock step -/

variable {i t : Nat} {step : RingStep}

section

variable {G : Group} {c : RingCall} {input : G.Member → Nat → M}

theorem roundAt_scatter (hi : i < G.size - 1) (r : G.Member) :
    (ringSystem G c input).roundAt r i = some (.scatter i) :=
  System.roundAt_eq_some.mpr ⟨mem_append_left _ (mem_map_of_mem (mem_range.mpr hi)), rfl⟩

theorem roundAt_gather (hi : i < G.size - 1) (r : G.Member) :
    (ringSystem G c input).roundAt r (G.size - 1 + i) = some (.gather i) :=
  System.roundAt_eq_some.mpr ⟨mem_append_right _ (mem_map_of_mem (mem_range.mpr hi)), rfl⟩

theorem roundAt_eq (r q : G.Member) (t : Nat) :
    (ringSystem G c input).roundAt r t = (ringSystem G c input).roundAt q t := rfl

/-- What a member receives is for the partition that its peer sends. -/
theorem sendPartitionIndex_receiveTarget (r : G.Member) (step : RingStep) :
    sendPartitionIndex G.size (G.index (G.receiveTarget r)) step =
      receivePartitionIndex G.size (G.index r) step := by
  have hpos : 0 < G.size := Group.size_pos
  rw [Group.index_receiveTarget]
  cases step with
  | scatter i =>
    rw [sendPartitionIndex, receivePartitionIndex, mod_add_mod, Nat.add_right_comm]
  | gather i =>
    rw [sendPartitionIndex, receivePartitionIndex, Nat.add_sub_assoc hpos, add_assoc,
      mod_add_mod, show G.index r + 1 + (i + (G.size - 1)) = G.index r + i + G.size by omega,
      add_mod_right]

theorem outAt_receiveTarget (r : G.Member)
    (hstep : (ringSystem G c input).roundAt r t = some step) :
    (ringSystem G c input).outAt t (G.receiveTarget r) r =
      replicate (c.length G.size (receivePartitionIndex G.size (G.index r) step))
        ⟨step, receivePartitionIndex G.size (G.index r) step,
          c.count G.size (receivePartitionIndex G.size (G.index r) step),
          (ringSystem G c input).sync t (G.receiveTarget r)
            (receivePartitionIndex G.size (G.index r) step)⟩ := by
  have hpeer := (roundAt_eq (G.receiveTarget r) r t).trans hstep
  rw [System.outAt_of_some hpeer, ← sendPartitionIndex_receiveTarget]
  exact if_pos (Group.sendTarget_receiveTarget r).symm

theorem outAt_of_ne {r q : G.Member} (h : q ≠ G.receiveTarget r) :
    (ringSystem G c input).outAt t q r = [] := by
  cases hround : (ringSystem G c input).roundAt q t with
  | none => exact System.outAt_of_none hround r
  | some step =>
    rw [System.outAt_of_some hround]
    exact if_neg fun heq => h (Group.eq_sendTarget_iff.mp heq)

theorem next_of_message {r : G.Member} {got : G.Member → List (RingByte M)} {b : RingByte M} {j : Nat}
    (h : got (G.receiveTarget r) = replicate (c.length G.size j) b) (held : Nat → M) (step : RingStep)
    (k : Nat) : (ringAllReduce G c).next r held step got k =
      if k = receivePartitionIndex G.size (G.index r) step then step.apply (held k) b.value
      else held k := by
  rw [RingCall.length, Nat.add_comm, replicate_succ] at h
  simp only [ringAllReduce, h, Function.update_apply]
  split
  · next hk => rw [hk]
  · rfl

theorem sync_step (r : G.Member) (hstep : (ringSystem G c input).roundAt r t = some step)
    (k : Nat) :
    (ringSystem G c input).sync (t + 1) r k =
      if k = receivePartitionIndex G.size (G.index r) step then
        step.apply ((ringSystem G c input).sync t r k)
          ((ringSystem G c input).sync t (G.receiveTarget r) k)
      else (ringSystem G c input).sync t r k := by
  rw [System.sync_succ hstep]
  refine (next_of_message (outAt_receiveTarget r hstep) _ _ _).trans ?_
  split
  · next hk => rw [hk]
  · rfl

/-- No receive takes more than is meant for it, or waits for more. -/
theorem ringAligned (hstop : ∀ k < G.size, G.size = 1 ∨ c.tail G.size k = .stop) :
    (ringSystem G c input).Aligned where
  answers t r q := by
    cases hround : (ringSystem G c input).roundAt r t with
    | none =>
      rw [System.outAt_of_none (i := q) hround, System.needAt, hround]
      exact rfl
    | some step =>
      rw [System.needAt_of_some hround]
      change System.Answers (if q = G.receiveTarget r then some (c.length G.size _) else none) _
      split
      · next hq =>
        rw [hq, outAt_receiveTarget r hround]
        exact ⟨Nat.add_pos_left (by decide) _, length_replicate⟩
      · next hq => exact outAt_of_ne hq
  plain r step hstep held q := by
    change (if q = G.receiveTarget r then c.tail G.size _ else .stop) = _
    split
    · have hpos : 0 < G.size := Group.size_pos
      refine (hstop _ ?_).resolve_left fun hone => ?_
      · cases step <;> exact mod_lt _ hpos
      · -- a member alone has no steps
        change step ∈ ringSteps G.size at hstep
        rw [hone] at hstep
        exact not_mem_nil hstep
    · rfl

/-! ## 4. Contributions -/

/-- The contributions of `d + 1` members from the `j`-th on to partition `k`. -/
def gathered (input : G.Member → Nat → M) (j d k : Nat) : M :=
  ∑ e ∈ Finset.range (d + 1), input (G.nodeAt (j + e)) k

theorem gathered_zero (r : G.Member) (k : Nat) : gathered input (G.index r) 0 k = input r k := by
  simp [gathered, Group.nodeAt_index]

theorem gathered_succ (r : G.Member) (d k : Nat) :
    input r k + gathered input (G.index (G.receiveTarget r)) d k =
      gathered input (G.index r) (d + 1) k := by
  have hshift : ∀ e, G.nodeAt (G.index (G.receiveTarget r) + e) =
      G.nodeAt (G.index r + (e + 1)) := fun e => by
    rw [← Group.nodeAt_mod, Group.index_receiveTarget, mod_add_mod, Group.nodeAt_mod,
      add_assoc, add_comm 1 e]
  rw [gathered, gathered, Finset.sum_range_succ' _ (d + 1), add_comm]
  simp only [hshift, add_zero, Group.nodeAt_index]

theorem index_add_succ_mod (r : G.Member) (d : Nat) :
    (G.index r + (d + 1)) % G.size = (G.index (G.receiveTarget r) + d) % G.size := by
  rw [Group.index_receiveTarget, mod_add_mod, add_assoc, add_comm 1 d]

theorem add_mod_inj {n j d e : Nat} (hd : d < n) (he : e < n) :
    (j + d) % n = (j + e) % n ↔ d = e := by
  constructor
  · intro h
    have hmod := Nat.ModEq.add_left_cancel' j h
    rwa [Nat.ModEq, mod_eq_of_lt hd, mod_eq_of_lt he] at hmod
  · rintro rfl
    rfl

theorem exists_add_mod {n j k : Nat} (hj : j < n) (hk : k < n) : ∃ d < n, (j + d) % n = k := by
  refine ⟨(k + (n - j)) % n, mod_lt _ (Nat.zero_lt_of_lt hj), ?_⟩
  rw [Nat.add_mod_mod, show j + (k + (n - j)) = k + n by omega, add_mod_right, mod_eq_of_lt hk]

theorem gathered_all (r : G.Member) (k : Nat) :
    gathered input (G.index r) (G.size - 1) k = ∑ q, input q k := by
  have hpos : 0 < G.size := Group.size_pos
  rw [gathered, Nat.sub_add_cancel hpos]
  refine Finset.sum_bij (fun e _ => G.nodeAt (G.index r + e)) (fun _ _ => Finset.mem_univ _)
    (fun d hd e he heq => ?_) (fun q _ => ?_) fun _ _ => rfl
  · have hindex := congrArg G.index heq
    rw [Group.index_nodeAt, Group.index_nodeAt] at hindex
    exact (add_mod_inj (Finset.mem_range.mp hd) (Finset.mem_range.mp he)).mp hindex
  · obtain ⟨d, hd, heq⟩ := exists_add_mod (Group.index_lt r) (Group.index_lt q)
    refine ⟨d, Finset.mem_range.mpr hd, ?_⟩
    rw [← Group.nodeAt_mod, heq, Group.nodeAt_index]

/-- Before step `t` of the first loop a member has combined the partitions up to
`t` positions after its own, each with the contributions of the members between. -/
theorem sync_scatter (ht : t ≤ G.size - 1) (r : G.Member) {d : Nat} (hd : d < G.size) :
    (ringSystem G c input).sync t r ((G.index r + d) % G.size) =
      gathered input (G.index r) (if d ≤ t then d else 0) ((G.index r + d) % G.size) := by
  induction t generalizing r d with
  | zero =>
    rw [show (if d ≤ 0 then d else 0) = 0 by split <;> omega, gathered_zero]
    rfl
  | succ t ih =>
    have hround : (ringSystem G c input).roundAt r t = some (.scatter t) :=
      roundAt_scatter (Nat.lt_of_succ_le ht) r
    have ht' : t ≤ G.size - 1 := Nat.le_of_succ_le ht
    rw [sync_step r hround, receivePartitionIndex, add_assoc]
    split
    · next hk =>
      obtain rfl : d = t + 1 := (add_mod_inj hd (by omega)).mp hk
      -- the peer has just combined this partition, one position nearer to its own
      have hown := ih ht' r hd
      have hrecv := ih ht' (G.receiveTarget r) (d := t) (by omega)
      rw [if_neg (Nat.not_succ_le_self t), gathered_zero] at hown
      rw [if_pos (le_refl t), ← index_add_succ_mod] at hrecv
      rw [RingStep.apply, hown, hrecv, if_pos (le_refl _), gathered_succ]
    · next hk =>
      have hne : d ≠ t + 1 := fun heq => hk (by rw [heq])
      have hiff : d ≤ t + 1 ↔ d ≤ t := by omega
      simp only [ih ht' r hd, hiff]

/-- Before step `i` of the second loop a member has the contributions of all
members to the partition before its own and the `i` partitions from its own on. -/
theorem sync_gather (hi : i ≤ G.size - 1) (r : G.Member) {d : Nat} (hd : d < G.size)
    (hhas : d < i ∨ d = G.size - 1) :
    (ringSystem G c input).sync (G.size - 1 + i) r ((G.index r + d) % G.size) =
      ∑ q, input q ((G.index r + d) % G.size) := by
  induction i generalizing r d with
  | zero =>
    obtain rfl : d = G.size - 1 := hhas.resolve_left (Nat.not_lt_zero d)
    rw [Nat.add_zero, sync_scatter (Nat.le_refl _) r hd, if_pos (Nat.le_refl _), gathered_all]
  | succ i ih =>
    have hround : (ringSystem G c input).roundAt r (G.size - 1 + i) = some (.gather i) :=
      roundAt_gather (Nat.lt_of_succ_le hi) r
    have hi' : i ≤ G.size - 1 := Nat.le_of_succ_le hi
    rw [← Nat.add_assoc, sync_step r hround, receivePartitionIndex]
    split
    · next hk =>
      obtain rfl : d = i := (add_mod_inj hd (by omega)).mp hk
      -- the peer has had this partition since its last step, or since the first loop
      cases d with
      | zero =>
        have hturn := index_add_succ_mod r (G.size - 1)
        rw [Nat.sub_add_cancel Group.size_pos, add_mod_right] at hturn
        have hrecv := ih hi' (G.receiveTarget r) (Nat.sub_lt Group.size_pos Nat.one_pos)
          (.inr rfl)
        rw [← hturn] at hrecv
        exact hrecv
      | succ e =>
        have hrecv := ih hi' (G.receiveTarget r) (Nat.lt_of_succ_lt hd)
          (.inl (Nat.lt_succ_self e))
        rw [← index_add_succ_mod] at hrecv
        exact hrecv
    · next hk =>
      have hne : d ≠ i := fun heq => hk (by rw [heq])
      exact ih hi' r hd (hhas.imp_left fun hlt => by omega)

/-- After both loops every member has all contributions to every partition. -/
theorem sync_bound (r : G.Member) {k : Nat} (hk : k < G.size) :
    (ringSystem G c input).sync (G.size - 1 + (G.size - 1)) r k = ∑ q, input q k := by
  obtain ⟨d, hd, rfl⟩ := exists_add_mod (Group.index_lt r) hk
  exact sync_gather (le_refl _) r hd (by omega)

/-! ## 5. Sizes -/

/-- All partitions have elements, less than 2^32 bytes of them, and no number of the computation is
rounded to another one. -/
structure RingCall.Whole (c : RingCall) (groupSize : Nat) : Prop where
  unrounded : c.size < 2 ^ 53 ∨ Unrounded c.size groupSize
  fits : (groupSize - 1) * partitionOf c.size groupSize < c.size
  pos : 0 < c.elementSize
  lt : partitionOf c.size groupSize * c.elementSize < 2 ^ 32

theorem RingCall.Whole.tail_eq {groupSize : Nat} (h : c.Whole groupSize) (hle : groupSize ≤ c.size)
    {k : Nat} (hk : k < groupSize) : c.tail groupSize k = .stop := by
  have hpos : 0 < groupSize := Nat.zero_lt_of_lt hk
  have hpartition := Nat.le_mul_of_pos_right (partitionOf c.size groupSize) h.pos
  have hlt := h.lt
  have hrest : partitionOf c.size groupSize * k < c.size := by
    have hmono := Nat.mul_le_mul_left (partitionOf c.size groupSize) (Nat.le_sub_one_of_lt hk)
    rw [Nat.mul_comm _ (groupSize - 1)] at hmono
    exact hmono.trans_lt h.fits
  have hnonempty : 0 < partitionOf c.size groupSize := Nat.pos_of_ne_zero fun hzero => by
    have hcover : c.size ≤ groupSize * partitionOf c.size groupSize := le_partitionOf_mul hpos
    rw [hzero] at hcover
    omega
  -- the elements of the partition
  obtain ⟨m, hm, hmpos, hmle⟩ : ∃ m : Nat, c.count groupSize k = m ∧ 0 < m ∧
      m ≤ partitionOf c.size groupSize := by
    refine ⟨min (partitionOf c.size groupSize) (c.size - partitionOf c.size groupSize * k), ?_,
      lt_min hnonempty (Nat.sub_pos_of_lt hrest), min_le_left _ _⟩
    have hsize : partitionSize c.size groupSize k =
        (min (partitionOf c.size groupSize) (c.size - partitionOf c.size groupSize * k) : Nat) := by
      rw [partitionSize, Nat.cast_min, Nat.cast_sub hrest.le, Nat.cast_mul]
    have hunrounded : Unrounded c.size groupSize :=
      h.unrounded.elim (fun hsmall => unrounded_of_fits hpos hle hsmall h.fits.le) id
    rw [count, hunrounded.messageSize_eq hk, hsize, Int.cast_natCast]
    refine c.convert_natCast _ ((min_le_left _ _).trans_lt ?_)
    omega
  have hbytes : m * c.elementSize < 2 ^ 32 := (Nat.mul_le_mul_right _ hmle).trans_lt hlt
  have heq : c.bytes groupSize k = m * c.elementSize := by
    rw [bytes, hm, u64_of_lt (hbytes.trans (by decide))]
  rw [tail, heq, if_neg (Nat.mul_pos hmpos h.pos).ne', if_pos hbytes]

/-! ## 6. Every run -/

/-- What a member has read of the message of its current step is that message. -/
theorem received_in_step {w : Net G.Member (RingByte M) (Nat → M) RingStep}
    (h : Inv (ringSystem G c input) w) {r q : G.Member} {rest : List RingStep}
    (htodo : (w.node r).todo = step :: rest) {b : RingByte M} (hb : b ∈ (w.node r).got q) :
    q = G.receiveTarget r ∧ b.step = step ∧
      b.partition = receivePartitionIndex G.size (G.index r) step ∧
      b.size = c.count G.size (receivePartitionIndex G.size (G.index r) step) := by
  have hmem := (h.got_prefix r q).subset hb
  have hround : (ringSystem G c input).roundAt r
      ((ringSystem G c input).stage (w.node r).todo) = some step := by
    rw [htodo]
    exact roundAt_current h htodo
  by_cases hq : q = G.receiveTarget r
  · subst hq
    rw [outAt_receiveTarget r hround] at hmem
    obtain rfl := eq_of_mem_replicate hmem
    exact ⟨rfl, rfl, rfl, rfl⟩
  · rw [outAt_of_ne hq] at hmem
    exact absurd hmem not_mem_nil

end

/-- A call does what it is for. Each byte is read from the member it is awaited from, in the step it
was sent in, for the partition it was sent for, in a message of the size that is asked for. A member
that has run both loops holds, for each partition, the sum of the values of all members. A call in
which some member has not finished has a step left, no run of it is longer than some number of
steps, and every run can be continued until all members have finished. -/
structure AllReduced (G : Group) (c : RingCall) (input : G.Member → Nat → M)
    (cap : G.Member → G.Member → ℕ∞) (w₀ : Net G.Member (RingByte M) (Nat → M) RingStep) : Prop where
  inStep : ∀ w, Run (ringAllReduce G c) cap w₀ w → ∀ r step rest, (w.node r).todo = step :: rest →
    ∀ q, ∀ b ∈ (w.node r).got q, q = G.receiveTarget r ∧ b.step = step ∧
      b.partition = receivePartitionIndex G.size (G.index r) step ∧
      b.size = c.count G.size (receivePartitionIndex G.size (G.index r) step)
  reduced : ∀ w, Run (ringAllReduce G c) cap w₀ w → ∀ r, (w.node r).todo = [] →
    ∀ k < G.size, (w.node r).st k = ∑ q, input q k
  goesOn : ∀ w, Run (ringAllReduce G c) cap w₀ w → ¬ Finished w →
    ∃ w', Step (ringAllReduce G c) cap w w'
  finishes : ∀ w, Run (ringAllReduce G c) cap w₀ w →
    ∃ w', Run (ringAllReduce G c) cap w w' ∧ Finished w'
  ends : ∃ bound, ∀ n w, RunN (ringAllReduce G c) cap n w₀ w → n ≤ bound

omit [AddCommMonoid M] in
theorem ringCall_eq_ok {G : Group} {c : RingCall} {input : G.Member → Nat → M}
    {w₀ : Net G.Member (RingByte M) (Nat → M) RingStep} (hcall : ringCall G c input = .ok w₀) :
    G.size ≤ c.size ∧ w₀ = Net.init (fun _ => ringSteps G.size) input := by
  unfold ringCall at hcall
  split at hcall
  case isTrue => cases hcall
  case isFalse hle => exact ⟨not_lt.mp hle, (Except.ok.inj hcall).symm⟩

/-- A call does what it is for with one member, and where all partitions have elements; whatever the
values and their sum are. -/
theorem ring_all_reduce_complete (G : Group) (c : RingCall) (input : G.Member → Nat → M)
    {w₀ : Net G.Member (RingByte M) (Nat → M) RingStep} (hcall : ringCall G c input = .ok w₀)
    (hwhole : G.size = 1 ∨ c.Whole G.size) (cap : G.Member → G.Member → ℕ∞)
    (hcap : ∀ r q, 0 < cap r q) : AllReduced G c input cap w₀ := by
  obtain ⟨hle, rfl⟩ := ringCall_eq_ok hcall
  have hal : (ringSystem G c input).Aligned :=
    ringAligned fun k hk => hwhole.imp_right fun h => h.tail_eq hle hk
  have hinv : ∀ w, Run (ringAllReduce G c) cap (Net.init (fun _ => ringSteps G.size) input) w →
      Inv (ringSystem G c input) w := fun w hrun =>
    Reachable.inv hal (S := ringSystem G c input) hrun
  refine ⟨fun w hrun r step rest htodo q b hb => received_in_step (hinv w hrun) htodo hb,
    fun w hrun r hdone k hk => ?_, fun w hrun => progress hal hcap (hinv w hrun),
    fun w hrun => exists_finished hal hcap (hinv w hrun),
    work (ringSystem G c input) (Net.init (fun _ => ringSteps G.size) input), fun n w hrun => ?_⟩
  · have hst := (hinv w hrun).st r
    rw [hdone] at hst
    rw [hst]
    exact sync_bound r hk
  · exact length_le_work (S := ringSystem G c input) hal (inv_init hal) hrun

/-! ## 7. Empty partitions -/

section

variable {G : Group} {c : RingCall} {input : G.Member → Nat → M}
  {cap : G.Member → G.Member → ℕ∞} {w : Net G.Member (RingByte M) (Nat → M) RingStep}

/-- The bytes that the receive of a step takes at least. -/
def leastTaken (G : Group) (c : RingCall) (r : G.Member) (step : RingStep) : Nat :=
  let k := receivePartitionIndex G.size (G.index r) step
  c.length G.size k + if c.bytes G.size k = 0 then 1 else 0

theorem leastTaken_le {r : G.Member} {held : Nat → M} {got chan : List (RingByte M)}
    (h : Ended ((ringAllReduce G c).need r held step (G.receiveTarget r)) got chan
      ((ringAllReduce G c).tail r held step (G.receiveTarget r))) :
    leastTaken G c r step ≤ got.length := by
  simp only [ringAllReduce, if_true, RingCall.tail] at h
  simp only [leastTaken]
  have hserved : ∀ {n : Nat}, Served (some (8 + n)) got → got.length = 8 + n := fun {n} hs => by
    rwa [Nat.add_comm] at hs ⊢
  split at h
  case isTrue hzero =>
    obtain ⟨n, hn, hlt⟩ := h
    cases hn
    simp only [hzero, if_true]
    exact hlt
  case isFalse hsome =>
    rw [if_neg hsome, Nat.add_zero]
    split at h
    · exact (hserved h).ge
    · exact (hserved h.1).ge

/-- Each member receives each partition in one of the loops. -/
theorem exists_receive (r : G.Member) {k : Nat} (hk : k < G.size) (hmany : G.size ≠ 1) :
    ∃ step ∈ ringSteps G.size, receivePartitionIndex G.size (G.index r) step = k := by
  have hpos : 0 < G.size := Group.size_pos
  obtain ⟨d, hd, heq⟩ := exists_add_mod (Group.index_lt r) hk
  cases d with
  | zero => exact ⟨.gather 0, mem_append_right _ (mem_map_of_mem (mem_range.mpr (by omega))), heq⟩
  | succ i => exact ⟨.scatter i, mem_append_left _ (mem_map_of_mem (mem_range.mpr (by omega))), heq⟩

/-- With an empty partition no member comes to the end, in any run of a call by more than one. -/
theorem starves_of_empty {k : Nat} (hk : k < G.size) (hmany : G.size ≠ 1)
    (hempty : c.bytes G.size k = 0)
    (hrun : Run (ringAllReduce G c) cap (Net.init (fun _ => ringSteps G.size) input) w)
    (r : G.Member) : (w.node r).todo ≠ [] := by
  obtain ⟨step, hstep, hreceives⟩ := exists_receive r hk hmany
  have hout (held : Nat → M) (step : RingStep) :
      ((ringAllReduce G c).out (G.receiveTarget r) held step r).length =
        c.length G.size (receivePartitionIndex G.size (G.index r) step) := by
    simp only [ringAllReduce, Group.sendTarget_receiveTarget, if_true, length_replicate,
      sendPartitionIndex_receiveTarget]
  refine starves hout (fun held step got chan => leastTaken_le) ?_ hrun
  refine sum_lt_sum _ _ (fun step _ => Nat.le_add_right _ _) ⟨step, hstep, ?_⟩
  rw [leastTaken, hreceives, hempty, if_pos rfl]
  exact Nat.lt_succ_self _

end

/-- Bytes, with the conversion that rounds towards zero. -/
def bytesCall (size : Nat) : RingCall where
  size := size
  elementSize := 1
  convert q := ⌊q⌋.toNat
  convert_natCast n _ := by rw [Int.floor_natCast, Int.toNat_natCast]

def trio : Group := ⟨[3, 5, 8], by decide, by decide⟩

/-- Four bytes at three members: partitions of 2, 2 and 0. -/
theorem not_all_reduced_four :
    ∃ w₀, ringCall trio (bytesCall 4) (fun r _ => ({r.val} : Multiset MPIRankID)) = .ok w₀ ∧
      ∀ cap, ¬ AllReduced trio (bytesCall 4) (fun r _ => {r.val}) cap w₀ := by
  refine ⟨_, rfl, fun cap h => ?_⟩
  have hsize : messageSize 4 3 2 = 0 := by
    rw [(unrounded_of_fits (by decide) (by decide) (by decide) (by decide)).messageSize_eq
      (by decide)]
    decide
  have hempty : (bytesCall 4).bytes 3 2 = 0 := by
    simp only [bytesCall, RingCall.bytes, RingCall.count, hsize]
    decide
  obtain ⟨w, hrun, hdone⟩ := h.finishes _ .refl
  exact starves_of_empty (G := trio) (by decide) (by decide) hempty hrun ⟨3, by decide⟩ (hdone _)

/-- Three ranks with seven bytes, over channels that hold one. Where a value is the multiset of its
contributors, each member ends with every contributor once. -/
theorem ring_all_reduce_complete_trio :
    ∃ w : Net trio.Member (RingByte (Multiset MPIRankID)) (Nat → Multiset MPIRankID) RingStep,
      Run (ringAllReduce trio (bytesCall 7)) (fun _ _ => 1)
        (Net.init (fun _ => ringSteps 3) fun r _ => {r.val}) w ∧
      ∀ r, (w.node r).todo = [] ∧ ∀ k < 3, (w.node r).st k = {3, 5, 8} := by
  have hall := ring_all_reduce_complete trio (bytesCall 7)
    (fun r _ => ({r.val} : Multiset MPIRankID)) rfl
    (.inr ⟨.inl (by decide), by decide, by decide, by decide⟩) (fun _ _ => 1) fun _ _ => by simp
  obtain ⟨w, hrun, hdone⟩ := hall.finishes _ .refl
  refine ⟨w, hrun, fun r => ⟨hdone r, fun k hk => ?_⟩⟩
  rw [hall.reduced w hrun r (hdone r) k hk]
  decide

end MoeJit.Mpi
