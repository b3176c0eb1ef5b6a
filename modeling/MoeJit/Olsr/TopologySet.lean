import Mathlib.Data.UInt

/-!
# The topology set of OLSR

`ProcessTc` of `olsr-routing-protocol.cc` and the topology set of `olsr-state.cc`. Every tuple has a
timer that looks whether the tuple has expired, and waits on if it has been refreshed. Times are
nanoseconds.

A TC message leaves the tuples of other originators alone. As long as the tuples of its originator
have the sequence number of the message, it leaves exactly one tuple for each address that was there
or is advertised (`mem_foldl_addAdvertised`).
-/

namespace MoeJit.Olsr

open List

abbrev Ipv4Address := UInt32

abbrev Time := Nat

structure LinkTuple where
  neighborIfaceAddr : Ipv4Address
  symTime : Time

structure TopologyTuple where
  destAddr : Ipv4Address
  lastAddr : Ipv4Address
  sequenceNumber : UInt16
  expirationTime : Time

/-- The header of a TC message with the message. `count` is a record of how often the originator had
called `IncrementAnsn`; no modelled function reads it. -/
structure MessageHeader where
  originatorAddress : Ipv4Address
  vTime : Time
  ansn : UInt16
  neighborAddresses : List Ipv4Address
  count : Nat

/-- A scheduled call of `TopologyTupleTimerExpire`. -/
structure Timer where
  time : Time
  destAddr : Ipv4Address
  lastAddr : Ipv4Address

structure Node where
  now : Time := 0
  linkSet : List LinkTuple := []
  topologySet : List TopologyTuple := []
  timers : List Timer := []

/-! ## 1. `OlsrState` -/

def findSymLinkTuple (ifaceAddr : Ipv4Address) (now : Time) : List LinkTuple → Option LinkTuple
  | [] => none
  | tuple :: tuples =>
    if tuple.neighborIfaceAddr = ifaceAddr then
      if now < tuple.symTime then some tuple else none
    else findSymLinkTuple ifaceAddr now tuples

/-- The tuple for `destAddr` that `lastAddr` has advertised. -/
def TopologyTuple.Is (destAddr lastAddr : Ipv4Address) (tuple : TopologyTuple) : Prop :=
  tuple.destAddr = destAddr ∧ tuple.lastAddr = lastAddr

instance (destAddr lastAddr : Ipv4Address) : DecidablePred (TopologyTuple.Is destAddr lastAddr) :=
  fun tuple => inferInstanceAs (Decidable (tuple.destAddr = destAddr ∧ tuple.lastAddr = lastAddr))

def findTopologyTuple (destAddr lastAddr : Ipv4Address) (topologySet : List TopologyTuple) :
    Option TopologyTuple :=
  topologySet.find? fun tuple => tuple.Is destAddr lastAddr

def findNewerTopologyTuple (lastAddr : Ipv4Address) (ansn : UInt16)
    (topologySet : List TopologyTuple) : Option TopologyTuple :=
  topologySet.find? fun tuple => tuple.lastAddr = lastAddr ∧ ansn < tuple.sequenceNumber

/-- Tuples are equal up to the expiration time. -/
def eraseTopologyTuple (tuple : TopologyTuple) (topologySet : List TopologyTuple) :
    List TopologyTuple :=
  topologySet.eraseP fun other =>
    other.Is tuple.destAddr tuple.lastAddr ∧ other.sequenceNumber = tuple.sequenceNumber

def eraseOlderTopologyTuples (lastAddr : Ipv4Address) (ansn : UInt16)
    (topologySet : List TopologyTuple) : List TopologyTuple :=
  topologySet.filter fun tuple => ¬ (tuple.lastAddr = lastAddr ∧ tuple.sequenceNumber < ansn)

/-- The assignment to the tuple that `FindTopologyTuple` returns. -/
def setExpirationTime (destAddr lastAddr : Ipv4Address) (time : Time) :
    List TopologyTuple → List TopologyTuple
  | [] => []
  | tuple :: tuples =>
    if tuple.Is destAddr lastAddr then { tuple with expirationTime := time } :: tuples
    else tuple :: setExpirationTime destAddr lastAddr time tuples

/-! ## 2. `RoutingProtocol` -/

/-- `OLSR_MAX_SEQ_NUM`. -/
def maxSeqNum : Nat := 65535

/-- `IncrementAnsn`. -/
def incrementAnsn (ansn : UInt16) : UInt16 := .ofNat ((ansn.toNat + 1) % (maxSeqNum + 1))

/-- `DELAY`. -/
def delay (time now : Time) : Time := if time < now then 1000 else time - now + 1000

/-- The loop of `ProcessTc` for one advertised address. -/
def addAdvertised (msg : MessageHeader) (node : Node) (addr : Ipv4Address) : Node :=
  let expirationTime := node.now + msg.vTime
  match findTopologyTuple addr msg.originatorAddress node.topologySet with
  | some _ =>
    { node with
      topologySet := setExpirationTime addr msg.originatorAddress expirationTime node.topologySet }
  | none =>
    { node with
      topologySet := node.topologySet ++ [⟨addr, msg.originatorAddress, msg.ansn, expirationTime⟩]
      timers := node.timers ++
        [⟨node.now + delay expirationTime node.now, addr, msg.originatorAddress⟩] }

def processTc (msg : MessageHeader) (senderIface : Ipv4Address) (node : Node) : Node :=
  match findSymLinkTuple senderIface node.now node.linkSet with
  | none => node
  | some _ =>
    match findNewerTopologyTuple msg.originatorAddress msg.ansn node.topologySet with
    | some _ => node
    | none =>
      msg.neighborAddresses.foldl (addAdvertised msg) { node with
        topologySet := eraseOlderTopologyTuples msg.originatorAddress msg.ansn node.topologySet }

def topologyTupleTimerExpire (destAddr lastAddr : Ipv4Address) (node : Node) : Node :=
  match findTopologyTuple destAddr lastAddr node.topologySet with
  | none => node
  | some tuple =>
    if tuple.expirationTime < node.now then
      { node with topologySet := eraseTopologyTuple tuple node.topologySet }
    else
      { node with timers := node.timers ++
          [⟨node.now + delay tuple.expirationTime node.now, tuple.destAddr, tuple.lastAddr⟩] }

/-! ## 3. Tuples with different keys -/

/-- There is at most one tuple for a destination and an originator. -/
def Unique (topologySet : List TopologyTuple) : Prop :=
  (topologySet.map fun tuple => (tuple.destAddr, tuple.lastAddr)).Nodup

variable {destAddr lastAddr : Ipv4Address} {l : List TopologyTuple} {msg : MessageHeader}
  {node : Node}

theorem findTopologyTuple_eq_none :
    findTopologyTuple destAddr lastAddr l = none ↔ ∀ t ∈ l, ¬ t.Is destAddr lastAddr := by
  simp only [findTopologyTuple, find?_eq_none, decide_eq_true_eq]

theorem findTopologyTuple_eq_some {tuple : TopologyTuple}
    (h : findTopologyTuple destAddr lastAddr l = some tuple) :
    tuple ∈ l ∧ tuple.Is destAddr lastAddr :=
  ⟨mem_of_find?_eq_some h, by simpa using find?_some h⟩

theorem Unique.eq (h : Unique l) {t t' : TopologyTuple} (ht : t ∈ l) (ht' : t' ∈ l)
    (his : t'.Is t.destAddr t.lastAddr) : t' = t :=
  inj_on_of_nodup_map h ht' ht (Prod.ext his.1 his.2)

theorem Unique.filter (h : Unique l) (p : TopologyTuple → Bool) : Unique (l.filter p) :=
  h.sublist (filter_sublist.map _)

theorem map_setExpirationTime (destAddr lastAddr : Ipv4Address) (time : Time)
    (l : List TopologyTuple) :
    (setExpirationTime destAddr lastAddr time l).map (fun t => (t.destAddr, t.lastAddr)) =
      l.map fun t => (t.destAddr, t.lastAddr) := by
  induction l with
  | nil => rfl
  | cons t l ih =>
    rw [setExpirationTime]
    split
    · rfl
    · rw [map_cons, ih, map_cons]

theorem mem_setExpirationTime {time : Time} (h : Unique l) {tuple : TopologyTuple}
    (hmem : tuple ∈ l) (his : tuple.Is destAddr lastAddr) (t : TopologyTuple) :
    t ∈ setExpirationTime destAddr lastAddr time l ↔
      t ∈ l ∧ ¬ t.Is destAddr lastAddr ∨ t = { tuple with expirationTime := time } := by
  induction l with
  | nil => cases hmem
  | cons head l ih =>
    obtain ⟨hnot, hrest⟩ := nodup_cons.mp h
    rw [setExpirationTime]
    split
    · next hhead =>
      obtain rfl : tuple = head := h.eq mem_cons_self hmem
        ⟨his.1.trans hhead.1.symm, his.2.trans hhead.2.symm⟩
      have hother : ∀ t ∈ l, ¬ t.Is destAddr lastAddr := fun t ht hsame =>
        hnot (mem_map.mpr ⟨t, ht, Prod.ext (hsame.1.trans his.1.symm) (hsame.2.trans his.2.symm)⟩)
      constructor
      · intro ht
        rcases mem_cons.mp ht with rfl | ht
        · exact .inr rfl
        · exact .inl ⟨mem_cons_of_mem _ ht, hother t ht⟩
      · rintro (⟨ht, hne⟩ | rfl)
        · rcases mem_cons.mp ht with rfl | ht
          · exact absurd his hne
          · exact mem_cons_of_mem _ ht
        · exact mem_cons_self
    · next hhead =>
      have hmem' : tuple ∈ l := (mem_cons.mp hmem).resolve_left fun heq => hhead (heq ▸ his)
      rw [mem_cons, ih hrest hmem', mem_cons]
      constructor
      · rintro (rfl | ⟨ht, hne⟩ | rfl)
        · exact .inl ⟨.inl rfl, hhead⟩
        · exact .inl ⟨.inr ht, hne⟩
        · exact .inr rfl
      · rintro (⟨rfl | ht, hne⟩ | rfl)
        · exact .inl rfl
        · exact .inr (.inl ⟨ht, hne⟩)
        · exact .inr (.inr rfl)

/-! ## 4. The loop of `ProcessTc` -/

/-- The tuple of an advertised address. -/
def MessageHeader.tuple (msg : MessageHeader) (now : Time) (addr : Ipv4Address) : TopologyTuple :=
  ⟨addr, msg.originatorAddress, msg.ansn, now + msg.vTime⟩

/-- The originator's tuples have the sequence number of the message. -/
def Agrees (msg : MessageHeader) (topologySet : List TopologyTuple) : Prop :=
  ∀ t ∈ topologySet, t.lastAddr = msg.originatorAddress → t.sequenceNumber = msg.ansn

theorem addAdvertised_now (msg : MessageHeader) (node : Node) (addr : Ipv4Address) :
    (addAdvertised msg node addr).now = node.now := by
  simp only [addAdvertised]
  split <;> rfl

theorem mem_addAdvertised (hunique : Unique node.topologySet)
    (hagrees : Agrees msg node.topologySet) (addr : Ipv4Address) (t : TopologyTuple) :
    t ∈ (addAdvertised msg node addr).topologySet ↔
      t ∈ node.topologySet ∧ ¬ t.Is addr msg.originatorAddress ∨ t = msg.tuple node.now addr := by
  simp only [addAdvertised]
  split
  · next tuple hfind =>
    obtain ⟨hmem, his⟩ := findTopologyTuple_eq_some hfind
    have htuple : { tuple with expirationTime := node.now + msg.vTime } =
        msg.tuple node.now addr := by
      rw [MessageHeader.tuple, ← hagrees tuple hmem his.2, ← his.1, ← his.2]
    rw [mem_setExpirationTime hunique hmem his, htuple]
  · next hfind =>
    rw [mem_append, mem_singleton]
    exact or_congr_left (and_iff_left_of_imp fun ht => findTopologyTuple_eq_none.mp hfind t ht).symm

theorem addAdvertised_unique (h : Unique node.topologySet) (addr : Ipv4Address) :
    Unique (addAdvertised msg node addr).topologySet := by
  simp only [addAdvertised]
  split
  · rw [Unique, map_setExpirationTime]
    exact h
  · next hfind =>
    rw [Unique, map_append, nodup_append]
    refine ⟨h, nodup_singleton _, fun key hkey key' hkey' heq => ?_⟩
    obtain ⟨t, ht, rfl⟩ := mem_map.mp hkey
    rw [map_singleton, mem_singleton] at hkey'
    rw [hkey'] at heq
    obtain ⟨hdest, hlast⟩ := Prod.mk.inj heq
    exact findTopologyTuple_eq_none.mp hfind t ht ⟨hdest, hlast⟩

theorem addAdvertised_agrees (hunique : Unique node.topologySet)
    (hagrees : Agrees msg node.topologySet) (addr : Ipv4Address) :
    Agrees msg (addAdvertised msg node addr).topologySet := by
  intro t ht hlast
  rcases (mem_addAdvertised hunique hagrees addr t).mp ht with ⟨ht, -⟩ | rfl
  · exact hagrees t ht hlast
  · rfl

/-- A TC message that is processed leaves the tuples of other addresses and originators, and one
tuple for each advertised address. -/
theorem mem_foldl_addAdvertised {msg : MessageHeader} {node : Node}
    (hunique : Unique node.topologySet) (hagrees : Agrees msg node.topologySet)
    (addrs : List Ipv4Address) :
    Unique (addrs.foldl (addAdvertised msg) node).topologySet ∧
      (addrs.foldl (addAdvertised msg) node).now = node.now ∧
      ∀ t, t ∈ (addrs.foldl (addAdvertised msg) node).topologySet ↔
        t ∈ node.topologySet ∧ ¬ (t.lastAddr = msg.originatorAddress ∧ t.destAddr ∈ addrs) ∨
          ∃ addr ∈ addrs, t = msg.tuple node.now addr := by
  induction addrs generalizing node with
  | nil =>
    refine ⟨hunique, rfl, fun t => ?_⟩
    simp
  | cons addr addrs ih =>
    obtain ⟨hunique', hnow, hmem⟩ := ih (addAdvertised_unique hunique addr)
      (addAdvertised_agrees hunique hagrees addr)
    refine ⟨hunique', hnow.trans (addAdvertised_now msg node addr), fun t => ?_⟩
    rw [foldl_cons, hmem, mem_addAdvertised hunique hagrees, addAdvertised_now]
    constructor
    · rintro (⟨⟨ht, hne⟩ | rfl, hnot⟩ | ⟨a, ha, rfl⟩)
      · refine .inl ⟨ht, fun ⟨hlast, hdest⟩ => ?_⟩
        rcases mem_cons.mp hdest with hdest | hdest
        · exact hne ⟨hdest, hlast⟩
        · exact hnot ⟨hlast, hdest⟩
      · exact .inr ⟨addr, mem_cons_self, rfl⟩
      · exact .inr ⟨a, mem_cons_of_mem addr ha, rfl⟩
    · rintro (⟨ht, hnot⟩ | ⟨a, ha, rfl⟩)
      · refine .inl ⟨.inl ⟨ht, fun his => ?_⟩, fun ⟨hlast, hdest⟩ => ?_⟩
        · exact hnot ⟨his.2, his.1 ▸ mem_cons_self⟩
        · exact hnot ⟨hlast, mem_cons_of_mem addr hdest⟩
      · by_cases hin : a ∈ addrs
        · exact .inr ⟨a, hin, rfl⟩
        · obtain rfl := (mem_cons.mp ha).resolve_right hin
          exact .inl ⟨.inr rfl, fun hnot => hin hnot.2⟩

theorem delay_add (now vTime : Time) : delay (now + vTime) now = vTime + 1000 := by
  rw [delay, if_neg (Nat.not_lt.mpr (Nat.le_add_right now vTime)), Nat.add_sub_cancel_left]

theorem timers_addAdvertised (msg : MessageHeader) (node : Node) (addr : Ipv4Address) :
    (addAdvertised msg node addr).timers = node.timers ∧
        (∃ t ∈ node.topologySet, t.Is addr msg.originatorAddress) ∨
      (addAdvertised msg node addr).timers = node.timers ++
        [⟨node.now + (msg.vTime + 1000), addr, msg.originatorAddress⟩] := by
  simp only [addAdvertised]
  split
  · next tuple hfind => exact .inl ⟨rfl, tuple, findTopologyTuple_eq_some hfind⟩
  · rw [delay_add]
    exact .inr rfl

theorem timers_foldl_addAdvertised {msg : MessageHeader} {node : Node}
    (hunique : Unique node.topologySet) (hagrees : Agrees msg node.topologySet)
    (addrs : List Ipv4Address) :
    (∀ timer ∈ node.timers, timer ∈ (addrs.foldl (addAdvertised msg) node).timers) ∧
      (∀ timer ∈ (addrs.foldl (addAdvertised msg) node).timers,
        timer ∈ node.timers ∨ timer.time = node.now + (msg.vTime + 1000)) ∧
      ∀ addr ∈ addrs, (∃ t ∈ node.topologySet, t.Is addr msg.originatorAddress) ∨
        ⟨node.now + (msg.vTime + 1000), addr, msg.originatorAddress⟩ ∈
          (addrs.foldl (addAdvertised msg) node).timers := by
  induction addrs generalizing node with
  | nil => exact ⟨fun _ => id, fun _ => .inl, forall_mem_nil _⟩
  | cons addr addrs ih =>
    obtain ⟨hold, hnew, htimed⟩ := ih (addAdvertised_unique hunique addr)
      (addAdvertised_agrees hunique hagrees addr)
    rw [addAdvertised_now] at hnew htimed
    have hstep := timers_addAdvertised msg node addr
    refine ⟨fun timer htimer => hold timer ?_, fun timer htimer => ?_, fun a ha => ?_⟩
    · rcases hstep with ⟨heq, -⟩ | heq
      · rwa [heq]
      · rw [heq]
        exact mem_append_left _ htimer
    · rcases hnew timer htimer with htimer | htime
      · rcases hstep with ⟨heq, -⟩ | heq
        · exact .inl (heq ▸ htimer)
        · rw [heq, mem_append, mem_singleton] at htimer
          exact htimer.imp_right (congrArg Timer.time)
      · exact .inr htime
    · have hfirst : (∃ t ∈ node.topologySet, t.Is addr msg.originatorAddress) ∨
          ⟨node.now + (msg.vTime + 1000), addr, msg.originatorAddress⟩ ∈
            ((addr :: addrs).foldl (addAdvertised msg) node).timers := by
        rcases hstep with ⟨-, hfound⟩ | heq
        · exact .inl hfound
        · refine .inr (hold _ ?_)
          rw [heq]
          exact mem_append_right _ (mem_singleton_self _)
      rcases mem_cons.mp ha with rfl | ha
      · exact hfirst
      · rcases htimed a ha with ⟨t, ht, his⟩ | htimer
        · rcases (mem_addAdvertised hunique hagrees addr t).mp ht with ⟨ht, -⟩ | rfl
          · exact .inl ⟨t, ht, his⟩
          · obtain rfl : addr = a := his.1
            exact hfirst
        · exact .inr htimer

end MoeJit.Olsr
