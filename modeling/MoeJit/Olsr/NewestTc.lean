import MoeJit.Olsr.TopologySet
import MoeJit.Lib.Circle
import MoeJit.Lib.GuardedRun

/-!
# The newest TC message

Originators that advance their ANSN with `IncrementAnsn` and send TC messages, which may be lost,
duplicated and overtaken, and a node that receives them. Staleness is decided by plain comparisons
of the 16-bit numbers, and a node forgets an originator when its last tuple expires. As long as the
comparisons agree with the order in which the numbers were used, and no older message comes when all
is forgotten, the tuples are those of the newest message (`topology_right`).
-/

namespace MoeJit.Olsr

open List

/-! ## 1. Runs -/

/-- What has happened to the tuples of a node: a TC message came over a symmetric link, or the timer
of a tuple found it expired. The log is a record; no modelled function reads it. -/
inductive Entry
  | received (time : Time) (msg : MessageHeader)
  | expired (destAddr lastAddr : Ipv4Address)

/-- `changes` is a record of how often `IncrementAnsn` was called. -/
structure World where
  ansn : Ipv4Address → UInt16
  changes : Ipv4Address → Nat
  sent : List MessageHeader
  node : Node
  log : List Entry

inductive Event
  | incrementAnsn (addr : Ipv4Address)
  | sendTc (addr : Ipv4Address) (vTime : Time) (neighborAddresses : List Ipv4Address)
  /-- A message that was sent arrives, not necessarily for the first time. -/
  | receive (i : Nat) (senderIface : Ipv4Address)
  /-- HELLO messages change the link set. -/
  | links (linkSet : List LinkTuple)
  /-- Time passes up to the next timer at most. -/
  | pass (time : Time)
  | fire (i : Nat)

/-- `ProcessTc` does not discard what comes from there. -/
def Node.symmetric (node : Node) (senderIface : Ipv4Address) : Bool :=
  (findSymLinkTuple senderIface node.now node.linkSet).isSome

/-- `TopologyTupleTimerExpire` removes the tuple. -/
def Node.expires (node : Node) (destAddr lastAddr : Ipv4Address) : Bool :=
  (findTopologyTuple destAddr lastAddr node.topologySet).any (·.expirationTime < node.now)

/-- An event that cannot happen in this state changes nothing. -/
def step (w : World) : Event → World
  | .incrementAnsn addr =>
    { w with
      ansn := Function.update w.ansn addr (incrementAnsn (w.ansn addr))
      changes := Function.update w.changes addr (w.changes addr + 1) }
  | .sendTc addr vTime neighborAddresses =>
    { w with sent := w.sent ++ [⟨addr, vTime, w.ansn addr, neighborAddresses, w.changes addr⟩] }
  | .receive i senderIface =>
    match w.sent[i]? with
    | none => w
    | some msg =>
      { w with
        node := processTc msg senderIface w.node
        log := if w.node.symmetric senderIface then .received w.node.now msg :: w.log else w.log }
  | .links linkSet => { w with node := { w.node with linkSet := linkSet } }
  | .pass time =>
    if w.node.now ≤ time ∧ ∀ timer ∈ w.node.timers, time ≤ timer.time then
      { w with node := { w.node with now := time } }
    else w
  | .fire i =>
    match w.node.timers[i]? with
    | none => w
    | some timer =>
      if timer.time = w.node.now then
        { w with
          node := topologyTupleTimerExpire timer.destAddr timer.lastAddr
            { w.node with timers := w.node.timers.eraseIdx i }
          log := if w.node.expires timer.destAddr timer.lastAddr then
            .expired timer.destAddr timer.lastAddr :: w.log else w.log }
      else w

/-- Nodes that have not heard of each other. The ANSN of an originator may be any by then. -/
def start (first : Ipv4Address → UInt16) : World := ⟨first, fun _ => 0, [], {}, []⟩

/-! ## 2. What the topology set is for -/

/-- How often the originator of the newest TC message that came had called `IncrementAnsn`. -/
def newest (lastAddr : Ipv4Address) : List Entry → Option Nat
  | [] => none
  | .received _ msg :: log =>
    if msg.originatorAddress = lastAddr then
      some (max msg.count ((newest lastAddr log).getD 0))
    else newest lastAddr log
  | .expired _ _ :: log => newest lastAddr log

/-- Until when the last TC message with this number has advertised an address. -/
def advertised (lastAddr : Ipv4Address) (count : Nat) (destAddr : Ipv4Address) :
    List Entry → Option Time
  | [] => none
  | .received time msg :: log =>
    if msg.originatorAddress = lastAddr ∧ msg.count = count ∧ destAddr ∈ msg.neighborAddresses then
      some (time + msg.vTime)
    else advertised lastAddr count destAddr log
  | .expired _ _ :: log => advertised lastAddr count destAddr log

/-- The same, unless it has expired since. -/
def unexpired (lastAddr : Ipv4Address) (count : Nat) (destAddr : Ipv4Address) :
    List Entry → Option Time
  | [] => none
  | .received time msg :: log =>
    if msg.originatorAddress = lastAddr ∧ msg.count = count ∧ destAddr ∈ msg.neighborAddresses then
      some (time + msg.vTime)
    else unexpired lastAddr count destAddr log
  | .expired destAddr' lastAddr' :: log =>
    if destAddr' = destAddr ∧ lastAddr' = lastAddr then none
    else unexpired lastAddr count destAddr log

/-- `a` is newer than `b` in the circular order. -/
def Newer (a b : UInt16) : Prop :=
  0 < Circle.gap (2 ^ 16) a.toNat b.toNat ∧ Circle.gap (2 ^ 16) a.toNat b.toNat < 2 ^ 15

/-- The tuples of an originator are those of its newest TC message. -/
structure Right (w : World) (lastAddr : Ipv4Address) : Prop where
  /-- They carry the newest ANSN that was received, which is also the newest in the circular order
  among those that it can compare. -/
  sequenceNumber : ∀ t ∈ w.node.topologySet, t.lastAddr = lastAddr →
    (∃ time msg, .received time msg ∈ w.log ∧ msg.originatorAddress = lastAddr ∧
      newest lastAddr w.log = some msg.count ∧ t.sequenceNumber = msg.ansn) ∧
    ∀ time msg, .received time msg ∈ w.log → msg.originatorAddress = lastAddr →
      w.changes lastAddr < msg.count + 2 ^ 15 → msg.ansn = t.sequenceNumber ∨
        Newer t.sequenceNumber msg.ansn
  /-- The destinations are the addresses advertised with that ANSN and not expired. -/
  destAddr : ∀ count, newest lastAddr w.log = some count → ∀ destAddr,
    (∃ t ∈ w.node.topologySet, t.Is destAddr lastAddr) ↔
      (unexpired lastAddr count destAddr w.log).isSome = true
  once : ((w.node.topologySet.filter (·.lastAddr = lastAddr)).map (·.destAddr)).Nodup
  /-- No tuple expires before its time. -/
  early : ∀ count, newest lastAddr w.log = some count → ∀ destAddr time,
    advertised lastAddr count destAddr w.log = some time → w.node.now ≤ time →
      unexpired lastAddr count destAddr w.log = some time
  /-- A tuple expires at most a microsecond after a time that was advertised. -/
  late : ∀ t ∈ w.node.topologySet, t.lastAddr = lastAddr → ∃ time msg,
    .received time msg ∈ w.log ∧ msg.originatorAddress = lastAddr ∧
      newest lastAddr w.log = some msg.count ∧ t.destAddr ∈ msg.neighborAddresses ∧
      w.node.now ≤ time + msg.vTime + 1000

/-- The arrivals that do no harm. -/
def Fits (w : World) : Event → Prop
  | .receive i senderIface => ∀ msg, w.sent[i]? = some msg → w.node.symmetric senderIface = true →
      ∀ count, newest msg.originatorAddress w.log = some count →
        (∀ t ∈ w.node.topologySet, t.lastAddr = msg.originatorAddress →
          (msg.ansn < t.sequenceNumber ↔ msg.count < count) ∧
            (t.sequenceNumber < msg.ansn ↔ count < msg.count)) ∧
        ((∀ t ∈ w.node.topologySet, t.lastAddr ≠ msg.originatorAddress) → count ≤ msg.count)
  | _ => True

/-! ## 3. Numbers and logs -/

/-- The number of a message is that of its originator after so many changes. -/
def Numbered (first : Ipv4Address → UInt16) (changes : Ipv4Address → Nat) (msg : MessageHeader) :
    Prop :=
  msg.ansn.toNat = ((first msg.originatorAddress).toNat + msg.count) % 2 ^ 16 ∧
    msg.count ≤ changes msg.originatorAddress

theorem incrementAnsn_toNat (ansn : UInt16) :
    (incrementAnsn ansn).toNat = (ansn.toNat + 1) % 2 ^ 16 := by
  rw [incrementAnsn, maxSeqNum, UInt16.toNat_ofNat']
  exact Nat.mod_mod _ _

variable {first : Ipv4Address → UInt16}

/-- Within half a turn, numbers are in the circular order as they were used. -/
theorem eq_or_newer {changes : Ipv4Address → Nat} {msg msg' : MessageHeader}
    (h : Numbered first changes msg) (h' : Numbered first changes msg')
    (horig : msg'.originatorAddress = msg.originatorAddress) (hle : msg.count ≤ msg'.count)
    (hlt : msg'.count < msg.count + 2 ^ 15) : msg.ansn = msg'.ansn ∨ Newer msg'.ansn msg.ansn := by
  obtain ⟨hnum, -⟩ := h
  obtain ⟨hnum', -⟩ := h'
  rw [horig] at hnum'
  have hgap : Circle.gap (2 ^ 16) msg'.ansn.toNat msg.ansn.toNat = msg'.count - msg.count := by
    rw [hnum, hnum', Circle.gap_mod (Nat.add_le_add_left hle _) (by omega), Nat.add_sub_add_left]
  rcases Nat.eq_or_lt_of_le hle with heq | hless
  · refine .inl (UInt16.toNat.inj ?_)
    rw [hnum, hnum', heq]
  · refine .inr ⟨?_, ?_⟩ <;> rw [hgap] <;> omega

variable {time : Time} {log : List Entry} {lastAddr destAddr : Ipv4Address} {count : Nat}

theorem le_newest {msg : MessageHeader} (h : .received time msg ∈ log) :
    ∃ count, newest msg.originatorAddress log = some count ∧ msg.count ≤ count := by
  induction log with
  | nil => cases h
  | cons entry log ih =>
    rcases mem_cons.mp h with rfl | h
    · exact ⟨_, if_pos rfl, Nat.le_max_left _ _⟩
    · obtain ⟨count, hnewest, hle⟩ := ih h
      cases entry with
      | received time' msg' =>
        rw [newest, hnewest]
        split
        · exact ⟨_, rfl, hle.trans (Nat.le_max_right _ _)⟩
        · exact ⟨count, rfl, hle⟩
      | expired => exact ⟨count, hnewest, hle⟩

theorem mem_of_advertised (h : advertised lastAddr count destAddr log = some time) :
    ∃ received msg, .received received msg ∈ log ∧ msg.originatorAddress = lastAddr ∧
      msg.count = count ∧ destAddr ∈ msg.neighborAddresses ∧ time = received + msg.vTime := by
  induction log with
  | nil => cases h
  | cons entry log ih =>
    have hrest : advertised lastAddr count destAddr log = some time →
        ∃ received msg, .received received msg ∈ entry :: log ∧ msg.originatorAddress = lastAddr ∧
          msg.count = count ∧ destAddr ∈ msg.neighborAddresses ∧ time = received + msg.vTime :=
      fun h => by
        obtain ⟨received, msg, hmem, hmsg⟩ := ih h
        exact ⟨received, msg, mem_cons_of_mem _ hmem, hmsg⟩
    cases entry with
    | received received msg =>
      rw [advertised] at h
      split at h
      · next hmsg =>
        exact ⟨received, msg, mem_cons_self, hmsg.1, hmsg.2.1, hmsg.2.2, (Option.some.inj h).symm⟩
      · exact hrest h
    | expired => exact hrest h

theorem advertised_of_unexpired (h : unexpired lastAddr count destAddr log = some time) :
    advertised lastAddr count destAddr log = some time := by
  induction log with
  | nil => cases h
  | cons entry log ih =>
    cases entry with
    | received received msg =>
      rw [unexpired] at h
      rw [advertised]
      split at h
      · next hmsg => rwa [if_pos hmsg]
      · next hmsg =>
        rw [if_neg hmsg]
        exact ih h
    | expired =>
      rw [unexpired] at h
      split at h
      · cases h
      · exact ih h

/-! ## 4. The invariant -/

/-- The tuples are those of the newest messages, and each has a timer. -/
structure Inv (first : Ipv4Address → UInt16) (w : World) : Prop where
  ansn : ∀ addr, (w.ansn addr).toNat = ((first addr).toNat + w.changes addr) % 2 ^ 16
  sent : ∀ msg ∈ w.sent, Numbered first w.changes msg
  received : ∀ time msg, .received time msg ∈ w.log → Numbered first w.changes msg
  unique : Unique w.node.topologySet
  tuples : ∀ t ∈ w.node.topologySet, ∃ time msg, .received time msg ∈ w.log ∧
    msg.originatorAddress = t.lastAddr ∧ newest t.lastAddr w.log = some msg.count ∧
    t.sequenceNumber = msg.ansn ∧
    unexpired t.lastAddr msg.count t.destAddr w.log = some t.expirationTime
  complete : ∀ lastAddr count destAddr time, newest lastAddr w.log = some count →
    unexpired lastAddr count destAddr w.log = some time →
    ∃ t ∈ w.node.topologySet, t.Is destAddr lastAddr
  early : ∀ lastAddr count destAddr time, newest lastAddr w.log = some count →
    advertised lastAddr count destAddr w.log = some time → w.node.now ≤ time →
    unexpired lastAddr count destAddr w.log = some time
  pending : ∀ t ∈ w.node.topologySet, ∃ timer ∈ w.node.timers, timer.destAddr = t.destAddr ∧
    timer.lastAddr = t.lastAddr ∧ ∃ time msg, .received time msg ∈ w.log ∧
      msg.originatorAddress = t.lastAddr ∧ newest t.lastAddr w.log = some msg.count ∧
      t.destAddr ∈ msg.neighborAddresses ∧ timer.time ≤ time + msg.vTime + 1000
  future : ∀ timer ∈ w.node.timers, w.node.now ≤ timer.time

theorem Inv.right {w : World} (h : Inv first w) (lastAddr : Ipv4Address) : Right w lastAddr where
  sequenceNumber := by
    rintro t ht rfl
    obtain ⟨time, msg, hmem, horig, hnewest, hseq, -⟩ := h.tuples t ht
    refine ⟨⟨time, msg, hmem, horig, hnewest, hseq⟩, fun time' msg' hmem' horig' hlate => ?_⟩
    obtain ⟨count, hcount, hle⟩ := le_newest hmem'
    rw [horig', hnewest] at hcount
    obtain rfl := Option.some.inj hcount
    rw [hseq]
    refine eq_or_newer (h.received _ _ hmem') (h.received _ _ hmem) (horig.trans horig'.symm) hle ?_
    have hchanges := (h.received _ _ hmem).2
    rw [horig] at hchanges
    exact hchanges.trans_lt hlate
  destAddr := by
    intro count hnewest destAddr
    constructor
    · rintro ⟨t, ht, rfl, rfl⟩
      obtain ⟨time, msg, -, -, hcount, -, hsome⟩ := h.tuples t ht
      obtain rfl := Option.some.inj (hnewest.symm.trans hcount)
      rw [hsome]
      rfl
    · intro hsome
      obtain ⟨time, htime⟩ := Option.isSome_iff_exists.mp hsome
      exact h.complete lastAddr count destAddr time hnewest htime
  once := by
    refine List.Nodup.map_on ?_ (h.unique.of_map _ |>.filter _)
    intro t ht t' ht' hdest
    obtain ⟨ht, hlast⟩ := mem_filter.mp ht
    obtain ⟨ht', hlast'⟩ := mem_filter.mp ht'
    exact h.unique.eq ht' ht
      ⟨hdest, (of_decide_eq_true hlast).trans (of_decide_eq_true hlast').symm⟩
  early := fun count hnewest destAddr time => h.early lastAddr count destAddr time hnewest
  late := by
    rintro t ht rfl
    obtain ⟨timer, htimer, -, -, time, msg, hmem, horig, hnewest, hdest, hle⟩ := h.pending t ht
    exact ⟨time, msg, hmem, horig, hnewest, hdest, (h.future timer htimer).trans hle⟩

/-- The log tells the same of the newest messages. -/
def SameNewest (log log' : List Entry) : Prop :=
  (∀ time msg, .received time msg ∈ log → .received time msg ∈ log') ∧
  ∀ lastAddr, newest lastAddr log' = newest lastAddr log ∧
    ∀ count, newest lastAddr log = some count → ∀ destAddr,
      advertised lastAddr count destAddr log' = advertised lastAddr count destAddr log ∧
      unexpired lastAddr count destAddr log' = unexpired lastAddr count destAddr log

theorem Inv.congr {w w' : World} (h : Inv first w) (hansn : w'.ansn = w.ansn)
    (hchanges : w'.changes = w.changes) (hsent : w'.sent = w.sent) (hlog : SameNewest w.log w'.log)
    (hrecv : ∀ time msg, .received time msg ∈ w'.log → Numbered first w.changes msg)
    (hset : w'.node.topologySet = w.node.topologySet) (htimers : w'.node.timers = w.node.timers)
    (hnow : w.node.now ≤ w'.node.now) (hfuture : ∀ timer ∈ w.node.timers, w'.node.now ≤ timer.time)
    : Inv first w' where
  ansn := by
    rw [hansn, hchanges]
    exact h.ansn
  sent := by
    rw [hsent, hchanges]
    exact h.sent
  received := by
    rw [hchanges]
    exact hrecv
  unique := by
    rw [hset]
    exact h.unique
  tuples := by
    intro t ht
    rw [hset] at ht
    obtain ⟨time, msg, hmem, horig, hnewest, hseq, hsome⟩ := h.tuples t ht
    obtain ⟨hsame, hrest⟩ := hlog.2 t.lastAddr
    exact ⟨time, msg, hlog.1 _ _ hmem, horig, hsame.trans hnewest, hseq,
      (hrest _ hnewest _).2.trans hsome⟩
  complete := by
    intro lastAddr count destAddr time hnewest hsome
    obtain ⟨hsame, hrest⟩ := hlog.2 lastAddr
    rw [hsame] at hnewest
    rw [(hrest _ hnewest _).2] at hsome
    rw [hset]
    exact h.complete lastAddr count destAddr time hnewest hsome
  early := by
    intro lastAddr count destAddr time hnewest hadv hle
    obtain ⟨hsame, hrest⟩ := hlog.2 lastAddr
    rw [hsame] at hnewest
    rw [(hrest _ hnewest _).1] at hadv
    rw [(hrest _ hnewest _).2]
    exact h.early lastAddr count destAddr time hnewest hadv (hnow.trans hle)
  pending := by
    intro t ht
    rw [hset] at ht
    rw [htimers]
    obtain ⟨timer, htimer, hdest, hlast, time, msg, hmem, horig, hnewest, hrest⟩ := h.pending t ht
    exact ⟨timer, htimer, hdest, hlast, time, msg, hlog.1 _ _ hmem, horig,
      (hlog.2 t.lastAddr).1.trans hnewest, hrest⟩
  future := by
    rw [htimers]
    exact hfuture

/-! ## 5. Arrivals -/

section Arrival

variable {first : Ipv4Address → UInt16} {w : World} {msg : MessageHeader}

/-- What `Fits` says of an arrival. -/
def Comes (w : World) (msg : MessageHeader) : Prop :=
  ∀ count, newest msg.originatorAddress w.log = some count →
    (∀ t ∈ w.node.topologySet, t.lastAddr = msg.originatorAddress →
      (msg.ansn < t.sequenceNumber ↔ msg.count < count) ∧
        (t.sequenceNumber < msg.ansn ↔ count < msg.count)) ∧
    ((∀ t ∈ w.node.topologySet, t.lastAddr ≠ msg.originatorAddress) → count ≤ msg.count)

theorem received_other (hne : msg.originatorAddress ≠ lastAddr) (time : Time) (log : List Entry) :
    newest lastAddr (.received time msg :: log) = newest lastAddr log ∧ ∀ count destAddr,
        advertised lastAddr count destAddr (.received time msg :: log) =
          advertised lastAddr count destAddr log ∧
        unexpired lastAddr count destAddr (.received time msg :: log) =
          unexpired lastAddr count destAddr log :=
  ⟨if_neg hne, fun _ _ => ⟨if_neg fun heq => hne heq.1, if_neg fun heq => hne heq.1⟩⟩

theorem received_same (time : Time) (log : List Entry) (destAddr : Ipv4Address) :
    (destAddr ∈ msg.neighborAddresses →
      advertised msg.originatorAddress msg.count destAddr (.received time msg :: log) =
          some (time + msg.vTime) ∧
        unexpired msg.originatorAddress msg.count destAddr (.received time msg :: log) =
          some (time + msg.vTime)) ∧
    (destAddr ∉ msg.neighborAddresses →
      advertised msg.originatorAddress msg.count destAddr (.received time msg :: log) =
          advertised msg.originatorAddress msg.count destAddr log ∧
        unexpired msg.originatorAddress msg.count destAddr (.received time msg :: log) =
          unexpired msg.originatorAddress msg.count destAddr log) :=
  ⟨fun hin => ⟨if_pos ⟨rfl, rfl, hin⟩, if_pos ⟨rfl, rfl, hin⟩⟩,
    fun hout => ⟨if_neg fun heq => hout heq.2.2, if_neg fun heq => hout heq.2.2⟩⟩

theorem sameNewest_of_lt (hnewest : newest msg.originatorAddress w.log = some count)
    (hlt : msg.count < count) : SameNewest w.log (.received w.node.now msg :: w.log) := by
  refine ⟨fun _ _ => mem_cons_of_mem _, fun lastAddr => ?_⟩
  by_cases horig : msg.originatorAddress = lastAddr
  · subst horig
    refine ⟨?_, fun count' hcount' destAddr => ?_⟩
    · rw [newest, if_pos rfl, hnewest]
      exact congrArg some (Nat.max_eq_right hlt.le)
    · obtain rfl := Option.some.inj (hnewest.symm.trans hcount')
      have hne : ¬ (msg.originatorAddress = msg.originatorAddress ∧ msg.count = count ∧
          destAddr ∈ msg.neighborAddresses) := fun heq => hlt.ne heq.2.1
      exact ⟨if_neg hne, if_neg hne⟩
  · obtain ⟨hsame, hrest⟩ := received_other horig w.node.now w.log
    exact ⟨hsame, fun count _ => hrest count⟩

variable
  (hnone : findNewerTopologyTuple msg.originatorAddress msg.ansn w.node.topologySet = none)
include hnone

theorem not_newer_of_find {t : TopologyTuple} (ht : t ∈ w.node.topologySet)
    (hlast : t.lastAddr = msg.originatorAddress) : ¬ msg.ansn < t.sequenceNumber := by
  have hall := find?_eq_none.mp hnone t ht
  rw [decide_eq_true_eq] at hall
  exact fun hlt => hall ⟨hlast, hlt⟩

variable (hcomes : Comes w msg)
include hcomes

theorem le_count (hnewest : newest msg.originatorAddress w.log = some count) :
    count ≤ msg.count := by
  obtain ⟨hcompare, hforgot⟩ := hcomes count hnewest
  by_cases hstored : ∃ t ∈ w.node.topologySet, t.lastAddr = msg.originatorAddress
  · obtain ⟨t, ht, hlast⟩ := hstored
    exact not_lt.mp fun hlt => not_newer_of_find hnone ht hlast ((hcompare t ht hlast).1.mpr hlt)
  · exact hforgot fun t ht hlast => hstored ⟨t, ht, hlast⟩

variable (h : Inv first w)

include h in
/-- What `EraseOlderTopologyTuples` leaves is as new as the message. -/
theorem mem_eraseOlder {t : TopologyTuple}
    (ht : t ∈ eraseOlderTopologyTuples msg.originatorAddress msg.ansn w.node.topologySet)
    (hlast : t.lastAddr = msg.originatorAddress) : t ∈ w.node.topologySet ∧
      t.sequenceNumber = msg.ansn ∧ newest msg.originatorAddress w.log = some msg.count := by
  obtain ⟨ht, hkeep⟩ := mem_filter.mp ht
  rw [decide_eq_true_eq] at hkeep
  have hnot : ¬ t.sequenceNumber < msg.ansn := fun hlt => hkeep ⟨hlast, hlt⟩
  have hnot' := not_newer_of_find hnone ht hlast
  obtain ⟨time, old, -, -, hnewest, -, -⟩ := h.tuples t ht
  rw [hlast] at hnewest
  have hcompare := (hcomes _ hnewest).1 t ht hlast
  have heq : old.count = msg.count := le_antisymm (not_lt.mp fun hlt => hnot' (hcompare.1.mpr hlt))
    (not_lt.mp fun hlt => hnot (hcompare.2.mpr hlt))
  exact ⟨ht, UInt16.le_antisymm (UInt16.not_lt.mp hnot') (UInt16.not_lt.mp hnot), heq ▸ hnewest⟩

theorem newest_received : newest msg.originatorAddress (.received w.node.now msg :: w.log) =
    some msg.count := by
  rw [newest, if_pos rfl]
  cases hnewest : newest msg.originatorAddress w.log with
  | none => exact congrArg some (Nat.max_zero _)
  | some count => exact congrArg some (Nat.max_eq_left (le_count hnone hcomes hnewest))

/-- What was advertised with the number of the message is of the newest messages. -/
theorem newest_of_advertised
    (hadv : advertised msg.originatorAddress msg.count destAddr w.log = some time) :
    newest msg.originatorAddress w.log = some msg.count := by
  obtain ⟨received, old, hmem, horig, hcount, -, -⟩ := mem_of_advertised hadv
  obtain ⟨count, hnewest, hle⟩ := le_newest hmem
  rw [horig] at hnewest
  have hle' := le_count hnone hcomes hnewest
  rw [hnewest, le_antisymm hle' (hcount ▸ hle)]

include h in
theorem Inv.accept (hnum : Numbered first w.changes msg) : Inv first { w with
    node := msg.neighborAddresses.foldl (addAdvertised msg) { w.node with
      topologySet := eraseOlderTopologyTuples msg.originatorAddress msg.ansn w.node.topologySet }
    log := .received w.node.now msg :: w.log } := by
  have hkept : Unique (eraseOlderTopologyTuples msg.originatorAddress msg.ansn
    w.node.topologySet) := h.unique.filter _
  have hagrees : Agrees msg (eraseOlderTopologyTuples msg.originatorAddress msg.ansn
    w.node.topologySet) := fun t ht hlast => (mem_eraseOlder hnone hcomes h ht hlast).2.1
  obtain ⟨hunique, hnow, hmem⟩ := @mem_foldl_addAdvertised msg { w.node with
    topologySet := eraseOlderTopologyTuples msg.originatorAddress msg.ansn w.node.topologySet }
    hkept hagrees msg.neighborAddresses
  obtain ⟨hold, hnew, htimed⟩ := @timers_foldl_addAdvertised msg { w.node with
    topologySet := eraseOlderTopologyTuples msg.originatorAddress msg.ansn w.node.topologySet }
    hkept hagrees msg.neighborAddresses
  have hnewest := newest_received hnone hcomes
  refine ⟨h.ansn, h.sent, ?_, hunique, ?_, ?_, ?_, ?_, ?_⟩
  · intro time msg' hmsg
    rcases mem_cons.mp hmsg with heq | hmsg
    · obtain ⟨-, rfl⟩ := Entry.received.inj heq
      exact hnum
    · exact h.received time msg' hmsg
  · intro t ht
    rcases (hmem t).mp ht with ⟨ht, hout⟩ | ⟨addr, haddr, rfl⟩
    · obtain ⟨time, old, hold, horig, hcount, hseq, hsome⟩ := h.tuples t (mem_of_mem_filter ht)
      by_cases hlast : t.lastAddr = msg.originatorAddress
      · obtain ⟨-, hagree, hsame⟩ := mem_eraseOlder hnone hcomes h ht hlast
        rw [hlast] at horig hcount hsome ⊢
        obtain heq := Option.some.inj (hcount.symm.trans hsame)
        refine ⟨w.node.now, msg, mem_cons_self, rfl, hnewest, hagree, ?_⟩
        rw [((received_same _ _ _).2 fun hin => hout ⟨hlast, hin⟩).2, ← heq]
        exact hsome
      · obtain ⟨hsame, hrest⟩ := received_other (Ne.symm hlast) w.node.now w.log
        exact ⟨time, old, mem_cons_of_mem _ hold, horig, hsame.trans hcount, hseq,
          (hrest _ _).2.trans hsome⟩
    · exact ⟨w.node.now, msg, mem_cons_self, rfl, hnewest, rfl, ((received_same _ _ _).1 haddr).2⟩
  · intro lastAddr count destAddr time hcount hsome
    by_cases hlast : msg.originatorAddress = lastAddr
    · subst hlast
      obtain rfl := Option.some.inj (hnewest.symm.trans hcount)
      by_cases hin : destAddr ∈ msg.neighborAddresses
      · exact ⟨_, (hmem _).mpr (.inr ⟨destAddr, hin, rfl⟩), rfl, rfl⟩
      · rw [((received_same _ _ _).2 hin).2] at hsome
        have hsame := newest_of_advertised hnone hcomes (advertised_of_unexpired hsome)
        obtain ⟨t, ht, hdest, hlast⟩ := h.complete _ _ _ _ hsame hsome
        refine ⟨t, (hmem t).mpr (.inl ⟨mem_filter.mpr ⟨ht, ?_⟩, ?_⟩), hdest, hlast⟩
        · rw [decide_eq_true_eq]
          rintro ⟨-, hlt⟩
          exact absurd (((hcomes _ hsame).1 t ht hlast).2.mp hlt) (Nat.lt_irrefl _)
        · exact fun ⟨_, hdest'⟩ => hin (hdest ▸ hdest')
    · obtain ⟨hsame, hrest⟩ := received_other hlast w.node.now w.log
      obtain ⟨t, ht, hdest, hlast'⟩ := h.complete lastAddr count destAddr time
        (hsame.symm.trans hcount) ((hrest _ _).2.symm.trans hsome)
      refine ⟨t, (hmem t).mpr (.inl ⟨mem_filter.mpr ⟨ht, ?_⟩, ?_⟩), hdest, hlast'⟩
      · rw [decide_eq_true_eq]
        exact fun heq => hlast (heq.1.symm.trans hlast')
      · exact fun heq => hlast (heq.1.symm.trans hlast')
  · intro lastAddr count destAddr time hcount hadv hle
    rw [show (msg.neighborAddresses.foldl (addAdvertised msg) _).now = w.node.now from hnow] at hle
    by_cases hlast : msg.originatorAddress = lastAddr
    · subst hlast
      obtain rfl := Option.some.inj (hnewest.symm.trans hcount)
      by_cases hin : destAddr ∈ msg.neighborAddresses
      · rw [((received_same _ _ _).1 hin).1] at hadv
        rw [((received_same _ _ _).1 hin).2, hadv]
      · rw [((received_same _ _ _).2 hin).1] at hadv
        rw [((received_same _ _ _).2 hin).2]
        exact h.early _ _ _ _ (newest_of_advertised hnone hcomes hadv) hadv hle
    · obtain ⟨hsame, hrest⟩ := received_other hlast w.node.now w.log
      rw [(hrest _ _).2]
      exact h.early _ _ _ _ (hsame.symm.trans hcount) ((hrest _ _).1.symm.trans hadv) hle
  · have hkeep : ∀ t ∈ eraseOlderTopologyTuples msg.originatorAddress msg.ansn w.node.topologySet,
        newest t.lastAddr (.received w.node.now msg :: w.log) = newest t.lastAddr w.log := by
      intro t ht
      by_cases hlast : t.lastAddr = msg.originatorAddress
      · rw [hlast, hnewest, (mem_eraseOlder hnone hcomes h ht hlast).2.2]
      · exact (received_other (Ne.symm hlast) w.node.now w.log).1
    intro t ht
    rcases (hmem t).mp ht with ⟨ht, -⟩ | ⟨addr, haddr, rfl⟩
    · obtain ⟨timer, htimer, hdest, hlast, time, old, hmsg, horig, hcount, hrest⟩ :=
        h.pending t (mem_of_mem_filter ht)
      exact ⟨timer, hold timer htimer, hdest, hlast, time, old, mem_cons_of_mem _ hmsg, horig,
        (hkeep t ht).trans hcount, hrest⟩
    · rcases htimed addr haddr with ⟨t, ht, his⟩ | htimer
      · obtain ⟨timer, htimer, hdest, hlast, time, old, hmsg, horig, hcount, hrest⟩ :=
          h.pending t (mem_of_mem_filter ht)
        have hsame := (hkeep t ht).trans hcount
        rw [his.1] at hdest hrest
        rw [his.2] at hlast horig hsame
        exact ⟨timer, hold timer htimer, hdest, hlast, time, old, mem_cons_of_mem _ hmsg,
          horig, hsame, hrest⟩
      · exact ⟨_, htimer, rfl, rfl, w.node.now, msg, mem_cons_self, rfl, hnewest, haddr,
          (Nat.add_assoc _ _ _).ge⟩
  · intro timer htimer
    rw [show (msg.neighborAddresses.foldl (addAdvertised msg) _).now = w.node.now from hnow]
    rcases hnew timer htimer with htimer | htime
    · exact h.future timer htimer
    · rw [htime]
      exact Nat.le_add_right _ _

end Arrival

/-! ## 6. Timers -/

theorem mem_eraseTopologyTuple {l : List TopologyTuple} (h : Unique l) {tuple : TopologyTuple}
    (htuple : tuple ∈ l) (t : TopologyTuple) : t ∈ eraseTopologyTuple tuple l ↔
      t ∈ l ∧ ¬ t.Is tuple.destAddr tuple.lastAddr := by
  obtain ⟨other, front, back, -, hother, rfl, herase⟩ :=
    exists_of_eraseP (p := fun other : TopologyTuple =>
      decide (other.Is tuple.destAddr tuple.lastAddr ∧
        other.sequenceNumber = tuple.sequenceNumber)) htuple (decide_eq_true ⟨⟨rfl, rfl⟩, rfl⟩)
  rw [decide_eq_true_eq] at hother
  rw [eraseTopologyTuple, herase]
  rw [Unique, map_append, map_cons, nodup_middle, ← map_append] at h
  obtain ⟨hnot, -⟩ := nodup_cons.mp h
  constructor
  · refine fun ht => ⟨?_, fun his => hnot (mem_map.mpr ⟨t, ht, ?_⟩)⟩
    · rw [mem_append, mem_cons]
      exact (mem_append.mp ht).imp_right .inr
    · exact Prod.ext (his.1.trans hother.1.1.symm) (his.2.trans hother.1.2.symm)
  · rintro ⟨ht, hne⟩
    rw [mem_append, mem_cons] at ht
    rcases ht with ht | rfl | ht
    · exact mem_append_left _ ht
    · exact absurd hother.1 hne
    · exact mem_append_right _ ht

theorem mem_eraseIdx_of_ne {timers : List Timer} {i : Nat} {timer timer' : Timer}
    (htimer : timers[i]? = some timer) (hmem : timer' ∈ timers) (hne : timer' ≠ timer) :
    timer' ∈ timers.eraseIdx i := by
  obtain ⟨j, hj⟩ := mem_iff_getElem?.mp hmem
  refine mem_eraseIdx_iff_getElem?.mpr ⟨j, ?_, hj⟩
  rintro rfl
  exact hne (Option.some.inj (hj.symm.trans htimer))

section Timers

variable {first : Ipv4Address → UInt16} {w : World}

theorem Inv.expire (h : Inv first w) {tuple : TopologyTuple} (htuple : tuple ∈ w.node.topologySet)
    (hlate : tuple.expirationTime < w.node.now) {timers : List Timer}
    (hsub : ∀ timer ∈ timers, timer ∈ w.node.timers)
    (hkeep : ∀ timer ∈ w.node.timers,
      timer ∈ timers ∨ timer.destAddr = tuple.destAddr ∧ timer.lastAddr = tuple.lastAddr) :
    Inv first { w with
      node := { w.node with
        topologySet := eraseTopologyTuple tuple w.node.topologySet
        timers := timers }
      log := .expired tuple.destAddr tuple.lastAddr :: w.log } := by
  have hmem := mem_eraseTopologyTuple h.unique htuple
  refine ⟨h.ansn, h.sent, ?_, ?_, ?_, ?_, ?_, ?_, ?_⟩
  · intro time msg hmsg
    exact h.received time msg ((mem_cons.mp hmsg).resolve_left nofun)
  · exact h.unique.sublist (eraseP_sublist.map _)
  · intro t ht
    obtain ⟨ht, hne⟩ := (hmem t).mp ht
    obtain ⟨time, msg, hmsg, horig, hnewest, hseq, hsome⟩ := h.tuples t ht
    refine ⟨time, msg, mem_cons_of_mem _ hmsg, horig, hnewest, hseq, ?_⟩
    rw [unexpired, if_neg fun heq => hne ⟨heq.1.symm, heq.2.symm⟩]
    exact hsome
  · intro lastAddr count destAddr time hnewest hsome
    rw [unexpired] at hsome
    split at hsome
    · cases hsome
    · next hne =>
      obtain ⟨t, ht, hdest, hlast⟩ := h.complete _ _ _ _ hnewest hsome
      exact ⟨t, (hmem t).mpr ⟨ht, fun his => hne ⟨his.1.symm.trans hdest, his.2.symm.trans hlast⟩⟩,
        hdest, hlast⟩
  · intro lastAddr count destAddr time hnewest hadv hle
    have hsome := h.early lastAddr count destAddr time hnewest hadv hle
    rw [unexpired, if_neg]
    · exact hsome
    · rintro ⟨rfl, rfl⟩
      obtain ⟨-, msg, -, -, hcount, -, hexp⟩ := h.tuples tuple htuple
      obtain rfl := Option.some.inj (hcount.symm.trans hnewest)
      obtain rfl := Option.some.inj (hexp.symm.trans hsome)
      exact absurd hlate (not_lt.mpr hle)
  · intro t ht
    obtain ⟨ht, hne⟩ := (hmem t).mp ht
    obtain ⟨timer, htimer, hdest, hlast, time, msg, hmsg, hrest⟩ := h.pending t ht
    refine ⟨timer, (hkeep timer htimer).resolve_right fun his => ?_, hdest, hlast, time, msg,
      mem_cons_of_mem _ hmsg, hrest⟩
    exact hne ⟨hdest.symm.trans his.1, hlast.symm.trans his.2⟩
  · exact fun timer htimer => h.future timer (hsub timer htimer)

theorem Inv.timers (h : Inv first w) {timers : List Timer}
    (hfuture : ∀ timer ∈ timers, w.node.now ≤ timer.time)
    (hkeep : ∀ t ∈ w.node.topologySet, ∀ timer ∈ w.node.timers, timer.destAddr = t.destAddr →
      timer.lastAddr = t.lastAddr →
      timer ∈ timers ∨ ⟨t.expirationTime + 1000, t.destAddr, t.lastAddr⟩ ∈ timers) :
    Inv first { w with node := { w.node with timers := timers } } := by
  refine ⟨h.ansn, h.sent, h.received, h.unique, h.tuples, h.complete, h.early, ?_, hfuture⟩
  intro t ht
  obtain ⟨timer, htimer, hdest, hlast, hrest⟩ := h.pending t ht
  rcases hkeep t ht timer htimer hdest hlast with hin | hin
  · exact ⟨timer, hin, hdest, hlast, hrest⟩
  · obtain ⟨-, msg, -, -, hnewest, -, hsome⟩ := h.tuples t ht
    obtain ⟨time, msg', hmsg, horig, hcount, hnbr, hexp⟩ :=
      mem_of_advertised (advertised_of_unexpired hsome)
    rw [← hcount] at hnewest
    exact ⟨_, hin, rfl, rfl, time, msg', hmsg, horig, hnewest, hnbr, (congrArg (· + 1000) hexp).le⟩

theorem Inv.fire (h : Inv first w) {i : Nat} {timer : Timer}
    (htimer : w.node.timers[i]? = some timer) : Inv first { w with
      node := topologyTupleTimerExpire timer.destAddr timer.lastAddr
        { w.node with timers := w.node.timers.eraseIdx i }
      log := if w.node.expires timer.destAddr timer.lastAddr then
        .expired timer.destAddr timer.lastAddr :: w.log else w.log } := by
  have hsub : ∀ timer' ∈ w.node.timers.eraseIdx i, timer' ∈ w.node.timers :=
    fun timer' => mem_of_mem_eraseIdx
  rw [topologyTupleTimerExpire, Node.expires]
  simp only
  cases hfind : findTopologyTuple timer.destAddr timer.lastAddr w.node.topologySet with
  | none =>
    refine h.timers (fun timer' htimer' => h.future timer' (hsub timer' htimer')) ?_
    intro t ht timer' htimer' hdest hlast
    refine .inl (mem_eraseIdx_of_ne htimer htimer' ?_)
    rintro rfl
    exact findTopologyTuple_eq_none.mp hfind t ht ⟨hdest.symm, hlast.symm⟩
  | some tuple =>
    obtain ⟨htuple, hdest, hlast⟩ := findTopologyTuple_eq_some hfind
    by_cases hlate : tuple.expirationTime < w.node.now
    · simp only [Option.any_some, decide_eq_true hlate, if_true, if_pos hlate]
      rw [← hdest, ← hlast]
      refine h.expire htuple hlate hsub fun timer' htimer' => ?_
      by_cases heq : timer' = timer
      · exact .inr (heq ▸ ⟨hdest.symm, hlast.symm⟩)
      · exact .inl (mem_eraseIdx_of_ne htimer htimer' heq)
    · have hdelay : w.node.now + delay tuple.expirationTime w.node.now =
          tuple.expirationTime + 1000 := by
        rw [delay, if_neg hlate, ← Nat.add_assoc, Nat.add_sub_cancel' (Nat.not_lt.mp hlate)]
      simp only [Option.any_some, decide_eq_false hlate, Bool.false_eq_true, if_false, if_neg hlate,
        hdelay]
      refine h.timers (fun timer' htimer' => ?_) fun t ht timer' htimer' hdest' hlast' => ?_
      · rcases mem_append.mp htimer' with hold | hnew
        · exact h.future timer' (hsub timer' hold)
        · rw [mem_singleton.mp hnew]
          exact (Nat.not_lt.mp hlate).trans (Nat.le_add_right _ _)
      · by_cases heq : timer' = timer
        · subst heq
          obtain rfl : tuple = t := h.unique.eq ht htuple ⟨hdest.trans hdest', hlast.trans hlast'⟩
          exact .inr (mem_append_right _ (mem_singleton_self _))
        · exact .inl (mem_append_left _ (mem_eraseIdx_of_ne htimer htimer' heq))

end Timers

/-! ## 7. Runs -/

theorem step_inv (w : World) (event : Event) (h : Inv first w) (hfits : Fits w event) :
    Inv first (step w event) := by
  have hsame : SameNewest w.log w.log := ⟨fun _ _ => id, fun _ => ⟨rfl, fun _ _ _ => ⟨rfl, rfl⟩⟩⟩
  cases event with
  | incrementAnsn addr =>
    have hle : ∀ o, w.changes o ≤ Function.update w.changes addr (w.changes addr + 1) o := by
      intro o
      by_cases heq : o = addr
      · rw [heq, Function.update_self]
        exact Nat.le_succ _
      · rw [Function.update_of_ne heq]
    refine ⟨fun o => ?_, fun msg hmsg => ?_, fun time msg hmsg => ?_, h.unique, h.tuples,
      h.complete, h.early, h.pending, h.future⟩
    · simp only [step]
      by_cases heq : o = addr
      · rw [heq, Function.update_self, Function.update_self, incrementAnsn_toNat, h.ansn,
          Nat.mod_add_mod, add_assoc]
      · rw [Function.update_of_ne heq, Function.update_of_ne heq, h.ansn]
    · exact ⟨(h.sent msg hmsg).1, (h.sent msg hmsg).2.trans (hle _)⟩
    · exact ⟨(h.received time msg hmsg).1, (h.received time msg hmsg).2.trans (hle _)⟩
  | sendTc addr vTime neighborAddresses =>
    refine ⟨h.ansn, fun msg hmsg => ?_, h.received, h.unique, h.tuples, h.complete, h.early,
      h.pending, h.future⟩
    rcases mem_append.mp hmsg with hmsg | hmsg
    · exact h.sent msg hmsg
    · rw [mem_singleton.mp hmsg]
      exact ⟨h.ansn addr, le_refl _⟩
  | receive i senderIface =>
    rw [step]
    split
    · exact h
    · next msg hmsg =>
      have hnum := h.sent msg (mem_of_getElem? hmsg)
      by_cases hsym : w.node.symmetric senderIface = true
      · have hcomes : Comes w msg := hfits msg hmsg hsym
        obtain ⟨link, hlink⟩ := Option.isSome_iff_exists.mp hsym
        rw [if_pos hsym, processTc, hlink]
        simp only
        split
        · next t hnewer =>
          have ht := mem_of_find?_eq_some hnewer
          have hfind := find?_some hnewer
          rw [decide_eq_true_eq] at hfind
          obtain ⟨-, old, -, -, hnewest, -, -⟩ := h.tuples t ht
          rw [hfind.1] at hnewest
          have hlt := ((hcomes _ hnewest).1 t ht hfind.1).1.mp hfind.2
          refine h.congr rfl rfl rfl (sameNewest_of_lt hnewest hlt) ?_ rfl rfl (le_refl _) h.future
          intro time msg' hmsg'
          rcases mem_cons.mp hmsg' with heq | hmsg'
          · obtain ⟨-, rfl⟩ := Entry.received.inj heq
            exact hnum
          · exact h.received time msg' hmsg'
        · next hnone => exact h.accept hnone hcomes hnum
      · rw [if_neg hsym, processTc, Option.not_isSome_iff_eq_none.mp hsym]
        exact h
  | links linkSet =>
    exact h.congr rfl rfl rfl hsame h.received rfl rfl (le_refl _) h.future
  | pass time =>
    rw [step]
    split
    · next hpass =>
      exact h.congr rfl rfl rfl hsame h.received rfl rfl hpass.1 hpass.2
    · exact h
  | fire i =>
    rw [step]
    split
    · exact h
    · next timer htimer =>
      split
      · exact h.fire htimer
      · exact h

/-- In every run of harmless arrivals, the tuples of every originator are those of its newest TC
message. -/
theorem topology_right (first : Ipv4Address → UInt16) {events : List Event}
    (h : Guarded step Fits (start first) events) (lastAddr : Ipv4Address) :
    Right (events.foldl step (start first)) lastAddr := by
  have hstart : Inv first (start first) := by
    refine ⟨fun addr => (Nat.mod_eq_of_lt (UInt16.toNat_lt _)).symm, ?_, ?_, List.nodup_nil, ?_, ?_,
      ?_, ?_, ?_⟩ <;> nofun
  exact (h.inv_foldl step_inv hstart).right lastAddr

/-- A newer message and a late one. -/
theorem topology_right_two : ∃ events : List Event,
    Guarded step Fits (start fun _ => 7) events ∧
      ((events.foldl step (start fun _ => 7)).node.topologySet.map (·.destAddr)) = [3, 4] ∧
      Right (events.foldl step (start fun _ => 7)) 1 := by
  have h : Guarded step Fits (start fun _ => 7) [.links [⟨9, 1000000⟩], .sendTc 1 6000 [2, 3],
      .incrementAnsn 1, .sendTc 1 6000 [3, 4], .receive 1 9, .receive 0 9] := by
    refine ⟨trivial, trivial, trivial, trivial, fun msg hmsg _ count hcount => ?_,
      fun msg hmsg _ count hcount => ?_, trivial⟩
    · obtain rfl := Option.some.inj hmsg
      exact nomatch hcount
    · obtain rfl := Option.some.inj hmsg
      obtain rfl := Option.some.inj hcount
      exact ⟨by decide, fun hforgot => absurd rfl (hforgot _ List.mem_cons_self)⟩
  exact ⟨_, h, rfl, topology_right (fun _ => 7) h 1⟩

/-- After the ANSN `65535` the newer message with ANSN `0` is discarded. -/
theorem newer_discarded : ∃ events : List Event,
    newest 1 (events.foldl step (start fun _ => 65534)).log = some 2 ∧
      ((events.foldl step (start fun _ => 65534)).node.topologySet.map (·.sequenceNumber)) =
        [65535] ∧
      ¬ Right (events.foldl step (start fun _ => 65534)) 1 := by
  refine ⟨[.links [⟨9, 1000000⟩], .incrementAnsn 1, .sendTc 1 6000 [2], .incrementAnsn 1,
    .sendTc 1 6000 [3], .receive 0 9, .receive 1 9], rfl, rfl, fun h => ?_⟩
  obtain ⟨t, ht, hdest, -⟩ := (h.destAddr 2 rfl 3).mpr rfl
  obtain rfl := List.mem_singleton.mp ht
  exact absurd hdest (by decide)

end MoeJit.Olsr
