import MoeJit.Internet.Ipv4PartialPacket
import MoeJit.Lib.DeadlineQueue
import Mathlib.Data.List.TakeWhile

/-!
# The timeouts of the reassembly

`ProcessFragment` with the list of timeouts, and the event that looks after the list. An event that
is pending stays so when the datagram it was scheduled for is complete, so that events come early,
find an empty list, or come two at a time.

What comes up to an event is a `Simulation`: fragments arrive in between, in any order.
`timely_of_run` is what holds in every run: the list and the events are a queue of deadlines
(`Lib/DeadlineQueue`), its entries are the datagrams that are not complete, and an event drops those
that are due. `round_trip_of_run` is what fragmentation and reassembly are for, across timeouts.
-/

namespace MoeJit.Ipv4

open DeadlineQueue List Function
open Function (update)

/-! ## 1. Model -/

abbrev FragmentKey := BitVec 64 × BitVec 32

/-- An element of `FragmentsTimeoutsList_t`. `node` is the list node, for the iterator to it. -/
structure FragmentTimeout where
  node : Nat
  expires : Nat
  key : FragmentKey
  header : Ipv4Header
  iif : BitVec 32
  deriving DecidableEq

/-- With its `Fragments` a key has the iterator to its timeout. -/
structure Ipv4L3Protocol where
  fragments : FragmentKey → Option (Fragments × Nat)
  timeoutEventList : List FragmentTimeout
  nodes : Nat

/-- An iterator to the end that is read, or an event before the current time. -/
inductive TimeoutFailure
  | missingKey
  | negativeDelay
  deriving DecidableEq

/-- What the trace of dropped packets says, and whether a message is sent to the source. -/
structure Drop where
  time : Nat
  key : FragmentKey
  header : Ipv4Header
  packet : Packet
  iif : BitVec 32
  icmp : Bool

namespace Ipv4L3Protocol

def initial : Ipv4L3Protocol := ⟨fun _ => none, [], 0⟩

/-- With the time of the event, when one is scheduled. -/
def setTimeout (s : Ipv4L3Protocol) (now timeout : Nat) (key : FragmentKey) (header : Ipv4Header)
    (iif : BitVec 32) : Ipv4L3Protocol × Option Nat :=
  ({ s with
      timeoutEventList := s.timeoutEventList ++ [⟨s.nodes, now + timeout, key, header, iif⟩]
      nodes := s.nodes + 1 },
    if s.timeoutEventList.isEmpty then some (now + timeout) else none)

/-- The fragments with the key, found or created. -/
def findFragments (s : Ipv4L3Protocol) (now timeout : Nat) (header : Ipv4Header) (iif : BitVec 32) :
    (Ipv4L3Protocol × Option Nat) × Fragments × Nat :=
  match s.fragments header.key with
  | some (fragments, node) => ((s, none), fragments, node)
  | none =>
    let s' := { s with
      fragments := Function.update s.fragments header.key (some (Fragments.initial, s.nodes)) }
    (s'.setTimeout now timeout header.key header iif, Fragments.initial, s.nodes)

def processFragment (s : Ipv4L3Protocol) (now timeout : Nat) (packet : Packet)
    (header : Ipv4Header) (iif : BitVec 32) : (Ipv4L3Protocol × Option Nat) × Bool × Packet :=
  let ((s, scheduled), fragments, node) := s.findFragments now timeout header iif
  let fragments := fragments.addFragment packet header.fragmentOffset !header.isLastFragment
  if fragments.isEntire then
    (({ s with
        fragments := Function.update s.fragments header.key none
        timeoutEventList := s.timeoutEventList.filter fun t => t.node ≠ node }, scheduled),
      true, fragments.getPacket)
  else
    (({ s with fragments := Function.update s.fragments header.key (some (fragments, node)) },
      scheduled), false, packet)

def handleFragmentsTimeout (s : Ipv4L3Protocol) (now : Nat) (t : FragmentTimeout) :
    Except TimeoutFailure (Ipv4L3Protocol × Drop) :=
  match s.fragments t.key with
  | none => .error .missingKey
  | some (fragments, _) =>
    let packet := fragments.getPartialPacket.1
    .ok ({ s with fragments := Function.update s.fragments t.key none },
      ⟨now, t.key, t.header, packet, t.iif, 8 < getSize packet⟩)

/-- The loop of `HandleTimeout`, over the list. -/
def handleExpired (now : Nat) : List FragmentTimeout → Ipv4L3Protocol →
    Except TimeoutFailure (Ipv4L3Protocol × List Drop)
  | [], s => .ok ({ s with timeoutEventList := [] }, [])
  | t :: rest, s =>
    if t.expires = now then do
      let (s, drop) ← s.handleFragmentsTimeout now t
      let (s, drops) ← handleExpired now rest s
      return (s, drop :: drops)
    else .ok ({ s with timeoutEventList := t :: rest }, [])

def handleTimeout (s : Ipv4L3Protocol) (now : Nat) :
    Except TimeoutFailure ((Ipv4L3Protocol × Option Nat) × List Drop) := do
  let (s, drops) ← handleExpired now s.timeoutEventList s
  match s.timeoutEventList with
  | [] => return ((s, none), drops)
  | t :: _ =>
    if t.expires < now then throw .negativeDelay
    else return ((s, some (now + (t.expires - now))), drops)

end Ipv4L3Protocol

/-! ## 2. The simulation -/

/-- `pending` are the times of the events. An observer writes down when the first fragment of the
datagram with a key arrived and which fragments arrived since, and with what is dropped the time of
its first fragment. -/
structure Simulation where
  now : Nat
  protocol : Ipv4L3Protocol
  pending : List Nat
  first : FragmentKey → Nat
  arrived : FragmentKey → List (Packet × Ipv4Header)
  dropped : List (Drop × Nat)

inductive Action
  | fragment (time : Nat) (packet : Packet) (header : Ipv4Header) (iif : BitVec 32)
  | handleTimeout (time : Nat)

namespace Simulation

def initial : Simulation := ⟨0, .initial, [], fun _ => 0, fun _ => [], []⟩

def step (timeout : Nat) (s : Simulation) : Action → Except TimeoutFailure Simulation
  | .fragment time packet header iif =>
    let ((protocol, scheduled), _) := s.protocol.processFragment time timeout packet header iif
    let known := (s.protocol.fragments header.key).isSome
    let arrived := if known then s.arrived else Function.update s.arrived header.key []
    .ok { s with
      now := time
      protocol := protocol
      pending := scheduled.toList ++ s.pending
      first := if known then s.first else Function.update s.first header.key time
      arrived := Function.update arrived header.key (arrived header.key ++ [(packet, header)]) }
  | .handleTimeout time => do
    let ((protocol, scheduled), drops) ← s.protocol.handleTimeout time
    return { s with
      now := time
      protocol := protocol
      pending := scheduled.toList ++ s.pending.erase time
      dropped := s.dropped ++ drops.map fun d => (d, s.first d.key) }

/-- The events come in the order of their times, those of the same time in any order. -/
def Allowed (s : Simulation) : Action → Prop
  | .fragment time _ _ _ => s.now ≤ time ∧ ∀ e ∈ s.pending, time ≤ e
  | .handleTimeout time => time ∈ s.pending ∧ ∀ e ∈ s.pending, time ≤ e

/-- The datagrams of the list. -/
def listed (s : Simulation) : List FragmentKey :=
  s.protocol.timeoutEventList.map FragmentTimeout.key

end Simulation

/-! ## 3. Statement -/

/-- A datagram is not complete. -/
def Simulation.Incomplete (s : Simulation) (key : FragmentKey) : Prop :=
  (s.protocol.fragments key).isSome

structure Timely (timeout : Nat) (s : Simulation) : Prop where
  listed : ∀ key, key ∈ s.listed ↔ s.Incomplete key
  once : s.listed.Nodup
  ordered : s.protocol.timeoutEventList.Pairwise fun t t' => t.expires ≤ t'.expires
  pending : ∀ t ∈ s.protocol.timeoutEventList.head?, ∃ e ∈ s.pending, e ≤ t.expires
  expires : ∀ t ∈ s.protocol.timeoutEventList, t.expires = s.first t.key + timeout
  waiting : ∀ t ∈ s.protocol.timeoutEventList, s.now ≤ t.expires
  dropped : ∀ d ∈ s.dropped, d.1.time = d.2 + timeout

/-- What becomes of a datagram that is not complete. -/
def Leaves (timeout : Nat) (s : Simulation) (a : Action) (s' : Simulation) (key : FragmentKey) :
    Prop :=
  (∃ time packet header iif, a = .fragment time packet header iif ∧ header.key = key ∧
    (s.protocol.processFragment time timeout packet header iif).2.1 = true) ∨
  ∃ d ∈ s'.dropped, d.1.key = key ∧ d.1.time = s'.now ∧ s'.now = s.first key + timeout

/-- What an event finds due is dropped, each datagram once, and nothing else is dropped. -/
def DropsDue (timeout : Nat) (s : Simulation) (a : Action) (s' : Simulation) : Prop :=
  ∃ drops, s'.dropped = s.dropped ++ drops ∧ (drops.map fun d => d.1.key).Nodup ∧
    (∀ key, key ∈ drops.map (fun d => d.1.key) ↔
      a = .handleTimeout s'.now ∧ s.Incomplete key ∧ s'.now = s.first key + timeout) ∧
    ∀ key ∈ drops.map fun d => d.1.key, ¬s'.Incomplete key

/-! ## 4. The invariant -/

namespace Simulation

def deadlines (s : Simulation) : Deadlines FragmentTimeout :=
  ⟨s.now, s.protocol.timeoutEventList.map fun t => (t.expires, t), s.pending⟩

/-- The timeouts are a queue of deadlines, and each is that of one datagram. -/
structure Tracks (timeout : Nat) (s : Simulation) : Prop where
  sound : s.deadlines.Sound
  within : s.deadlines.Within timeout
  held : ∀ t ∈ s.protocol.timeoutEventList, ∃ f, s.protocol.fragments t.key = some (f, t.node)
  known : ∀ key f node, s.protocol.fragments key = some (f, node) →
    ∃ t ∈ s.protocol.timeoutEventList, t.key = key ∧ t.node = node
  nodes : s.protocol.timeoutEventList.Pairwise fun t t' => t.node < t'.node
  used : ∀ t ∈ s.protocol.timeoutEventList, t.node < s.protocol.nodes
  expires : ∀ t ∈ s.protocol.timeoutEventList, t.expires = s.first t.key + timeout
  dropped : ∀ d ∈ s.dropped, d.1.time = d.2 + timeout
  gathered : ∀ key f node, s.protocol.fragments key = some (f, node) →
    f = reassembly (s.arrived key)

variable {timeout : Nat} {s : Simulation}

theorem Tracks.nodup (h : Tracks timeout s) : s.listed.Nodup := by
  refine pairwise_map.mpr (h.nodes.imp_of_mem fun ht ht' hlt heq => ?_)
  obtain ⟨f, hf⟩ := h.held _ ht
  obtain ⟨f', hf'⟩ := h.held _ ht'
  rw [heq, hf'] at hf
  have hnode := congrArg Prod.snd (Option.some.inj hf)
  exact ne_of_lt hlt hnode.symm

theorem Tracks.timely (h : Tracks timeout s) : Timely timeout s where
  listed key := by
    constructor
    · intro hkey
      obtain ⟨t, ht, rfl⟩ := mem_map.mp hkey
      obtain ⟨f, hf⟩ := h.held t ht
      exact Option.isSome_of_eq_some hf
    · intro hsome
      obtain ⟨⟨f, node⟩, hf⟩ := Option.isSome_iff_exists.mp hsome
      obtain ⟨t, ht, rfl, -⟩ := h.known key f node hf
      exact mem_map_of_mem ht
  once := h.nodup
  ordered := by
    have hsorted : (s.protocol.timeoutEventList.map fun t => (t.expires, t)).Pairwise
        fun a b => a.1 ≤ b.1 := h.sound.sorted
    have hpair := pairwise_map.mp hsorted
    exact hpair
  pending t ht := by
    refine h.sound.served (t.expires, t) ?_
    show (s.protocol.timeoutEventList.map _).head? = _
    rw [head?_map, ht]
    rfl
  expires := h.expires
  waiting t ht := h.sound.waiting (t.expires, t) (mem_map_of_mem ht)
  dropped := h.dropped

theorem tracks_initial : Tracks timeout initial where
  sound := ⟨.nil, forall_mem_nil _, forall_mem_nil _, fun _ hx => by cases hx⟩
  within := forall_mem_nil _
  held := forall_mem_nil _
  known _ _ _ hf := by cases hf
  nodes := .nil
  used := forall_mem_nil _
  expires := forall_mem_nil _
  dropped := forall_mem_nil _
  gathered _ _ _ hf := by cases hf

/-! ## 5. Fragments -/

def wait (s : Simulation) (time : Nat) : Simulation := { s with now := time }

theorem Tracks.wait (h : Tracks timeout s) {time : Nat} (hnow : s.now ≤ time)
    (htime : ∀ e ∈ s.pending, time ≤ e) : Tracks timeout (s.wait time) where
  sound := h.sound.wait htime
  within := h.within.wait hnow
  held := h.held
  known := h.known
  nodes := h.nodes
  used := h.used
  expires := h.expires
  dropped := h.dropped
  gathered := h.gathered

/-- A datagram of which the first fragment arrives. -/
def begin (s : Simulation) (timeout : Nat) (header : Ipv4Header) (iif : BitVec 32) : Simulation :=
  let created := { s.protocol with
    fragments := Function.update s.protocol.fragments header.key
      (some (Fragments.initial, s.protocol.nodes)) }
  let (protocol, scheduled) := created.setTimeout s.now timeout header.key header iif
  { s with
    protocol := protocol
    pending := scheduled.toList ++ s.pending
    first := Function.update s.first header.key s.now
    arrived := Function.update s.arrived header.key [] }

theorem Tracks.begin (h : Tracks timeout s) {header : Ipv4Header} (iif : BitVec 32)
    (hnone : s.protocol.fragments header.key = none) :
    Tracks timeout (s.begin timeout header iif) := by
  have hother : ∀ t ∈ s.protocol.timeoutEventList, t.key ≠ header.key := fun t ht heq => by
    obtain ⟨f, hf⟩ := h.held t ht
    rw [heq, hnone] at hf
    cases hf
  have hset : (s.begin timeout header iif).deadlines = s.deadlines.set timeout
      ⟨s.protocol.nodes, s.now + timeout, header.key, header, iif⟩ := by
    have hempty : (s.protocol.timeoutEventList.map fun t => (t.expires, t)).isEmpty =
        s.protocol.timeoutEventList.isEmpty := isEmpty_map
    show Deadlines.mk _ ((s.protocol.timeoutEventList ++ [_]).map _)
      ((if s.protocol.timeoutEventList.isEmpty then _ else _ : Option Nat).toList ++ s.pending) =
        Deadlines.mk _ _ (if (s.protocol.timeoutEventList.map _).isEmpty then _ else _)
    rw [hempty, map_append]
    split <;> rfl
  refine ⟨?_, ?_, ?_, ?_, ?_, ?_, ?_, h.dropped, ?_⟩
  · rw [hset]
    exact h.sound.set h.within _
  · rw [hset]
    exact h.within.set _
  · intro t ht
    show ∃ f, update s.protocol.fragments header.key _ t.key = _
    rcases mem_append.mp ht with ht | ht
    · rw [update_of_ne (hother t ht)]
      exact h.held t ht
    · rw [mem_singleton.mp ht]
      exact ⟨_, update_self _ _ _⟩
  · intro key f node hf
    change update s.protocol.fragments header.key _ key = _ at hf
    by_cases hkey : key = header.key
    · subst hkey
      rw [update_self] at hf
      obtain ⟨-, rfl⟩ := Prod.mk.inj (Option.some.inj hf)
      exact ⟨_, mem_append_right _ (mem_singleton_self _), rfl, rfl⟩
    · rw [update_of_ne hkey] at hf
      obtain ⟨t, ht, hboth⟩ := h.known key f node hf
      exact ⟨t, mem_append_left _ ht, hboth⟩
  · refine pairwise_append.mpr ⟨h.nodes, pairwise_singleton _ _, fun t ht t' ht' => ?_⟩
    rw [mem_singleton.mp ht']
    exact h.used t ht
  · intro t ht
    rcases mem_append.mp ht with ht | ht
    · exact Nat.lt_succ_of_lt (h.used t ht)
    · rw [mem_singleton.mp ht]
      exact Nat.lt_succ_self _
  · intro t ht
    show t.expires = update s.first header.key s.now t.key + timeout
    rcases mem_append.mp ht with ht | ht
    · rw [update_of_ne (hother t ht)]
      exact h.expires t ht
    · rw [mem_singleton.mp ht, update_self]
  · intro key f node hf
    change update s.protocol.fragments header.key _ key = _ at hf
    show f = reassembly (update s.arrived header.key [] key)
    by_cases hkey : key = header.key
    · rw [hkey, update_self] at hf ⊢
      exact (Prod.mk.inj (Option.some.inj hf)).1.symm
    · rw [update_of_ne hkey] at hf ⊢
      exact h.gathered key f node hf

/-- A fragment is put to those of its datagram, which is not complete. -/
def replace (s : Simulation) (x : Packet × Ipv4Header) (fragments : Fragments) (node : Nat) :
    Simulation :=
  { s with
    protocol := { s.protocol with
      fragments := Function.update s.protocol.fragments x.2.key (some (fragments, node)) }
    arrived := Function.update s.arrived x.2.key (s.arrived x.2.key ++ [x]) }

theorem Tracks.replace (h : Tracks timeout s) {x : Packet × Ipv4Header} {f : Fragments}
    {node : Nat} (hf : s.protocol.fragments x.2.key = some (f, node)) :
    Tracks timeout (s.replace x (f.addFragment x.1 x.2.fragmentOffset x.2.moreFragments) node) where
  sound := h.sound
  within := h.within
  held t ht := by
    obtain ⟨g, hg⟩ := h.held t ht
    show ∃ f, update s.protocol.fragments x.2.key _ t.key = _
    by_cases hkey : t.key = x.2.key
    · rw [hkey, hf] at hg
      obtain ⟨-, hnode⟩ := Prod.mk.inj (Option.some.inj hg)
      rw [hkey, update_self, hnode]
      exact ⟨_, rfl⟩
    · rw [update_of_ne hkey]
      exact ⟨g, hg⟩
  known key g node' hg := by
    change update s.protocol.fragments x.2.key _ key = _ at hg
    by_cases hkey : key = x.2.key
    · subst hkey
      rw [update_self] at hg
      obtain ⟨-, rfl⟩ := Prod.mk.inj (Option.some.inj hg)
      exact h.known x.2.key f _ hf
    · rw [update_of_ne hkey] at hg
      exact h.known key g node' hg
  nodes := h.nodes
  used := h.used
  expires := h.expires
  dropped := h.dropped
  gathered key g node' hg := by
    change update s.protocol.fragments x.2.key _ key = _ at hg
    show g = reassembly (update s.arrived x.2.key _ key)
    by_cases hkey : key = x.2.key
    · rw [hkey, update_self] at hg ⊢
      rw [reassembly_append, ← h.gathered x.2.key f node hf]
      exact (Prod.mk.inj (Option.some.inj hg)).1.symm
    · rw [update_of_ne hkey] at hg ⊢
      exact h.gathered key g node' hg

/-- With a fragment its datagram is complete. -/
def finish (s : Simulation) (x : Packet × Ipv4Header) (node : Nat) : Simulation :=
  { s with
    protocol := { s.protocol with
      fragments := Function.update s.protocol.fragments x.2.key none
      timeoutEventList := s.protocol.timeoutEventList.filter fun t => t.node ≠ node }
    arrived := Function.update s.arrived x.2.key (s.arrived x.2.key ++ [x]) }

theorem Tracks.node_eq_iff (h : Tracks timeout s) {key : FragmentKey} {f : Fragments} {node : Nat}
    (hf : s.protocol.fragments key = some (f, node)) {t : FragmentTimeout}
    (ht : t ∈ s.protocol.timeoutEventList) : t.node = node ↔ t.key = key := by
  constructor
  · intro hnode
    obtain ⟨t', ht', hkey, hnode'⟩ := h.known key f node hf
    have hinj : t = t' := by
      by_contra hne
      rcases pairwise_iff_getElem.mp h.nodes with hpair
      obtain ⟨i, hi, rfl⟩ := getElem_of_mem ht
      obtain ⟨j, hj, rfl⟩ := getElem_of_mem ht'
      rcases Nat.lt_trichotomy i j with hlt | rfl | hgt
      · exact ne_of_lt (hpair i j hi hj hlt) (hnode.trans hnode'.symm)
      · exact hne rfl
      · exact ne_of_lt (hpair j i hj hi hgt) (hnode'.trans hnode.symm)
    rw [hinj, hkey]
  · intro hkey
    obtain ⟨g, hg⟩ := h.held t ht
    rw [hkey, hf] at hg
    exact (Prod.mk.inj (Option.some.inj hg)).2.symm

theorem Tracks.finish (h : Tracks timeout s) {x : Packet × Ipv4Header} {f : Fragments} {node : Nat}
    (hf : s.protocol.fragments x.2.key = some (f, node)) : Tracks timeout (s.finish x node) := by
  have hleft : ∀ t ∈ (s.finish x node).protocol.timeoutEventList,
      t ∈ s.protocol.timeoutEventList ∧ t.key ≠ x.2.key := by
    intro t ht
    obtain ⟨hmem, hne⟩ := mem_filter.mp ht
    exact ⟨hmem, fun hkey => of_decide_eq_true hne ((h.node_eq_iff hf hmem).mpr hkey)⟩
  have hremove : (s.finish x node).deadlines =
      s.deadlines.remove fun x => decide (x.2.node = node) := by
    have hfilter : (s.protocol.timeoutEventList.filter fun t => t.node ≠ node) =
        s.protocol.timeoutEventList.filter fun t => !decide (t.node = node) :=
      filter_congr fun t _ => decide_not
    show Deadlines.mk _ ((s.protocol.timeoutEventList.filter _).map _) _ =
      Deadlines.mk _ ((s.protocol.timeoutEventList.map _).filter _) _
    rw [filter_map, hfilter]
    rfl
  refine ⟨?_, ?_, ?_, ?_, h.nodes.filter _, ?_, ?_, h.dropped, ?_⟩
  · rw [hremove]
    exact h.sound.remove _
  · rw [hremove]
    exact h.within.remove _
  · intro t ht
    obtain ⟨hmem, hkey⟩ := hleft t ht
    show ∃ f, update s.protocol.fragments x.2.key none t.key = _
    rw [update_of_ne hkey]
    exact h.held t hmem
  · intro key g node' hg
    change update s.protocol.fragments x.2.key none key = _ at hg
    by_cases hkey : key = x.2.key
    · rw [hkey, update_self] at hg
      cases hg
    · rw [update_of_ne hkey] at hg
      obtain ⟨t, ht, rfl, hnode⟩ := h.known key g node' hg
      refine ⟨t, mem_filter.mpr ⟨ht, decide_eq_true fun heq => hkey ?_⟩, rfl, hnode⟩
      exact (h.node_eq_iff hf ht).mp heq
  · intro t ht
    exact h.used t (hleft t ht).1
  · intro t ht
    exact h.expires t (hleft t ht).1
  · intro key g node' hg
    change update s.protocol.fragments x.2.key none key = _ at hg
    show g = reassembly (update s.arrived x.2.key _ key)
    by_cases hkey : key = x.2.key
    · rw [hkey, update_self] at hg
      cases hg
    · rw [update_of_ne hkey] at hg ⊢
      exact h.gathered key g node' hg

/-- The fragments of a datagram that is not complete. -/
def since (s : Simulation) (key : FragmentKey) : List (Packet × Ipv4Header) :=
  if (s.protocol.fragments key).isSome then s.arrived key else []

/-- The fragment is added to those of its datagram, which begins with it if there are none. -/
theorem Tracks.step_fragment_eq (h : Tracks timeout s) {time : Nat} (hnow : s.now ≤ time)
    (htime : ∀ e ∈ s.pending, time ≤ e) (packet : Packet) (header : Ipv4Header)
    (iif : BitVec 32) : ∃ s₁ f node, Tracks timeout s₁ ∧
      s₁.protocol.fragments header.key = some (f, node) ∧
      (∀ key ≠ header.key, s₁.protocol.fragments key = s.protocol.fragments key) ∧
      s₁.now = time ∧ s₁.dropped = s.dropped ∧
      let added := reassembly (s.since header.key ++ [(packet, header)])
      added = f.addFragment packet header.fragmentOffset header.moreFragments ∧
      (s.protocol.processFragment time timeout packet header iif).2 =
        (if added.isEntire then (true, added.getPacket) else (false, packet)) ∧
      s.step timeout (.fragment time packet header iif) = .ok
        (if added.isEntire then s₁.finish (packet, header) node
          else s₁.replace (packet, header) added node) := by
  have hwait := h.wait hnow htime
  have hflag : (!header.isLastFragment) = header.moreFragments := Bool.not_not _
  cases hf : s.protocol.fragments header.key with
  | some entry =>
    obtain ⟨f, node⟩ := entry
    have hadded : reassembly (s.since header.key ++ [(packet, header)]) =
        f.addFragment packet header.fragmentOffset header.moreFragments := by
      rw [reassembly_append, since, hf, h.gathered header.key f node hf]
      rfl
    refine ⟨s.wait time, f, node, hwait, hf, fun _ _ => rfl, rfl, rfl, hadded, ?_⟩
    rw [hadded, step, Ipv4L3Protocol.processFragment, Ipv4L3Protocol.findFragments, hf]
    dsimp only
    rw [hflag]
    split
    · exact ⟨rfl, rfl⟩
    · exact ⟨rfl, rfl⟩
  | none =>
    have hadded : reassembly (s.since header.key ++ [(packet, header)]) =
        Fragments.initial.addFragment packet header.fragmentOffset header.moreFragments := by
      rw [reassembly_append, since, hf]
      rfl
    refine ⟨(s.wait time).begin timeout header iif, Fragments.initial, s.protocol.nodes,
      hwait.begin iif hf, update_self _ _ _,
      fun key hkey => update_of_ne hkey _ _, rfl, rfl, hadded, ?_⟩
    rw [hadded, step, Ipv4L3Protocol.processFragment, Ipv4L3Protocol.findFragments, hf]
    dsimp only
    rw [hflag]
    split
    · exact ⟨rfl, rfl⟩
    · exact ⟨rfl, rfl⟩

theorem Tracks.fragment (h : Tracks timeout s) {time : Nat} (hnow : s.now ≤ time)
    (htime : ∀ e ∈ s.pending, time ≤ e) (packet : Packet) (header : Ipv4Header)
    (iif : BitVec 32) :
    ∃ s', s.step timeout (.fragment time packet header iif) = .ok s' ∧ Tracks timeout s' ∧
      (∀ key, s.Incomplete key → s'.Incomplete key ∨
        Leaves timeout s (.fragment time packet header iif) s' key) ∧
      DropsDue timeout s (.fragment time packet header iif) s' := by
  obtain ⟨s₁, f, node, hs₁, hf, hothers, -, hdropped, hadded, hanswer, hstep⟩ :=
    h.step_fragment_eq hnow htime packet header iif
  refine ⟨_, hstep, ?_, fun key hkey => ?_, [], ?_, .nil, fun key => ?_, forall_mem_nil _⟩
  · split
    · exact hs₁.finish hf
    · rw [hadded]
      exact hs₁.replace hf
  · by_cases hmine : key = header.key
    · split
      · next hyes =>
        rw [if_pos hyes] at hanswer
        exact .inr (.inl ⟨time, packet, header, iif, rfl, hmine.symm, congrArg Prod.fst hanswer⟩)
      · refine .inl ?_
        show (update s₁.protocol.fragments header.key _ key).isSome
        rw [hmine, update_self]
        rfl
    · refine .inl ?_
      have hkept : (s₁.protocol.fragments key).isSome := by
        rw [hothers key hmine]
        exact hkey
      split
      all_goals
        show (update s₁.protocol.fragments header.key _ key).isSome
        rw [update_of_ne hmine]
        exact hkept
  · rw [append_nil, ← hdropped]
    split
    · rfl
    · rfl
  · exact iff_of_false not_mem_nil fun hdue => nomatch hdue.1

end Simulation

/-! ## 6. Events -/

/-- What is due at the front of a list is dropped. -/
def Expired (now : Nat) (list : List FragmentTimeout) (s s' : Ipv4L3Protocol)
    (drops : List Drop) : Prop :=
  s'.timeoutEventList = list.dropWhile (fun t => t.expires = now) ∧ s'.nodes = s.nodes ∧
    drops.map Drop.key = (list.takeWhile fun t => t.expires = now).map FragmentTimeout.key ∧
    (∀ d ∈ drops, d.time = now) ∧
    ∀ key, s'.fragments key =
      if key ∈ (list.takeWhile fun t => t.expires = now).map FragmentTimeout.key then none
      else s.fragments key

/-- It is, when the datagrams are there and different. -/
theorem handleExpired_spec (now : Nat) {list : List FragmentTimeout} {s : Ipv4L3Protocol}
    (hheld : ∀ t ∈ list.takeWhile fun t => t.expires = now, (s.fragments t.key).isSome)
    (hnodup : ((list.takeWhile fun t => t.expires = now).map FragmentTimeout.key).Nodup) :
    ∃ s' drops, Ipv4L3Protocol.handleExpired now list s = .ok (s', drops) ∧
      Expired now list s s' drops := by
  unfold Expired
  induction list generalizing s with
  | nil =>
    exact ⟨_, [], rfl, rfl, rfl, rfl, forall_mem_nil _, fun key =>
      (if_neg not_mem_nil).symm⟩
  | cons t rest ih =>
    by_cases hdue : t.expires = now
    · have htake : (t :: rest).takeWhile (fun t => t.expires = now) =
          t :: rest.takeWhile fun t => t.expires = now :=
        takeWhile_cons_of_pos (decide_eq_true hdue)
      rw [htake] at hheld hnodup ⊢
      rw [map_cons] at hnodup ⊢
      obtain ⟨hfirst, hlater⟩ := forall_mem_cons.mp hheld
      obtain ⟨hne, hrest⟩ := nodup_cons.mp hnodup
      obtain ⟨⟨f, node⟩, hf⟩ := Option.isSome_iff_exists.mp hfirst
      obtain ⟨s', drops, hok, hlist, hnodes, hkeys, htimes, hfragments⟩ :=
        ih (s := { s with fragments := update s.fragments t.key none })
          (fun t' ht' => by
            have hkey : t'.key ≠ t.key := fun heq => hne (heq ▸ mem_map_of_mem ht')
            show (update s.fragments t.key none t'.key).isSome
            rw [update_of_ne hkey]
            exact hlater t' ht') hrest
      refine ⟨s', ⟨now, t.key, t.header, f.getPartialPacket.1, t.iif,
        8 < getSize f.getPartialPacket.1⟩ :: drops, ?_, ?_, hnodes, ?_, ?_, fun key => ?_⟩
      · rw [Ipv4L3Protocol.handleExpired, if_pos hdue, Ipv4L3Protocol.handleFragmentsTimeout, hf]
        exact except_bind_eq_ok.mpr ⟨_, rfl, except_bind_eq_ok.mpr ⟨_, hok, rfl⟩⟩
      · have hdrop : (t :: rest).dropWhile (fun t => t.expires = now) =
            rest.dropWhile fun t => t.expires = now :=
          dropWhile_cons_of_pos (decide_eq_true hdue)
        rw [hlist, hdrop]
      · exact congrArg (t.key :: ·) hkeys
      · exact forall_mem_cons.mpr ⟨rfl, htimes⟩
      · rw [hfragments key]
        by_cases hkey : key = t.key
        · subst hkey
          rw [if_neg hne, if_pos mem_cons_self]
          exact update_self _ _ _
        · show (if _ then none else update s.fragments t.key none key) = _
          rw [update_of_ne hkey]
          simp only [mem_cons, hkey, false_or]
    · have htake : (t :: rest).takeWhile (fun t => t.expires = now) = [] :=
        takeWhile_cons_of_neg fun h => hdue (of_decide_eq_true h)
      have hdrop : (t :: rest).dropWhile (fun t => t.expires = now) = t :: rest :=
        dropWhile_cons_of_neg fun h => hdue (of_decide_eq_true h)
      rw [htake, hdrop, Ipv4L3Protocol.handleExpired, if_neg hdue]
      exact ⟨_, [], rfl, rfl, rfl, rfl, forall_mem_nil _, fun key =>
        (if_neg not_mem_nil).symm⟩

namespace Simulation

variable {timeout : Nat} {s : Simulation}

theorem queue_fire (s : Simulation) : s.deadlines.fire.queue =
    (s.protocol.timeoutEventList.dropWhile fun t => t.expires = s.now).map
      fun t => (t.expires, t) := by
  show (s.protocol.timeoutEventList.map fun t => (t.expires, t)).dropWhile _ = _
  rw [dropWhile_map]
  rfl

theorem Tracks.handleTimeout_ok (h : Tracks timeout s) :
    ∃ protocol drops, s.protocol.handleTimeout s.now =
        .ok ((protocol, protocol.timeoutEventList.head?.map FragmentTimeout.expires), drops) ∧
      Expired s.now s.protocol.timeoutEventList s.protocol protocol drops := by
  obtain ⟨protocol, drops, hok, hspec⟩ := handleExpired_spec s.now (s := s.protocol)
    (fun t ht => by
      obtain ⟨f, hf⟩ := h.held t ((takeWhile_sublist _).subset ht)
      exact Option.isSome_of_eq_some hf)
    (h.nodup.sublist ((takeWhile_sublist _).map _))
  refine ⟨protocol, drops, ?_, hspec⟩
  rw [Ipv4L3Protocol.handleTimeout, hok]
  show (match protocol.timeoutEventList with | [] => _ | t :: _ => _) = _
  cases hlist : protocol.timeoutEventList with
  | nil => rfl
  | cons t rest =>
    have ht : t ∈ s.protocol.timeoutEventList := by
      have hdrop : t ∈ s.protocol.timeoutEventList.dropWhile fun t => t.expires = s.now := by
        rw [← hspec.1, hlist]
        exact mem_cons_self
      exact (dropWhile_sublist _).subset hdrop
    have hwait : s.now ≤ t.expires := h.timely.waiting t ht
    show (if t.expires < s.now then _ else _) = _
    rw [if_neg (not_lt.mpr hwait), Nat.add_sub_cancel' hwait]
    rfl

/-- What is due stands at the front. -/
theorem Tracks.mem_takeWhile (h : Tracks timeout s) {t : FragmentTimeout}
    (ht : t ∈ s.protocol.timeoutEventList) (hdue : t.expires = s.now) :
    t ∈ s.protocol.timeoutEventList.takeWhile fun t => t.expires = s.now := by
  have hsorted := h.timely.ordered
  have hwaiting := h.timely.waiting
  generalize s.protocol.timeoutEventList = list at ht hsorted hwaiting ⊢
  induction list with
  | nil => exact absurd ht not_mem_nil
  | cons t' rest ih =>
    obtain ⟨hle, hrest⟩ := pairwise_cons.mp hsorted
    obtain ⟨hwait, hlater⟩ := forall_mem_cons.mp hwaiting
    have hfirst : t'.expires = s.now := by
      rcases mem_cons.mp ht with rfl | htail
      · exact hdue
      · exact Nat.le_antisymm ((hle t htail).trans_eq hdue) hwait
    have htake : (t' :: rest).takeWhile (fun t => t.expires = s.now) =
        t' :: rest.takeWhile fun t => t.expires = s.now :=
      takeWhile_cons_of_pos (decide_eq_true hfirst)
    rw [htake]
    rcases mem_cons.mp ht with rfl | htail
    · exact mem_cons_self
    · exact mem_cons_of_mem _ (ih htail hrest hlater)

/-- They are the datagrams that are due. -/
theorem Tracks.mem_due_iff (h : Tracks timeout s) {key : FragmentKey} :
    key ∈ (s.protocol.timeoutEventList.takeWhile fun t => t.expires = s.now).map
        FragmentTimeout.key ↔ s.Incomplete key ∧ s.now = s.first key + timeout := by
  constructor
  · intro hkey
    obtain ⟨t, ht, rfl⟩ := mem_map.mp hkey
    have hmem := (takeWhile_sublist _).subset ht
    have htrue := mem_takeWhile_imp ht
    have hdue : t.expires = s.now := of_decide_eq_true htrue
    exact ⟨(h.timely.listed t.key).mp (mem_map_of_mem hmem), hdue ▸ h.expires t hmem⟩
  · rintro ⟨hincomplete, hnow⟩
    obtain ⟨t, ht, rfl⟩ := mem_map.mp ((h.timely.listed key).mpr hincomplete)
    exact mem_map_of_mem (h.mem_takeWhile ht ((h.expires t ht).trans hnow.symm))

theorem Tracks.event (h : Tracks timeout s) :
    ∃ s', s.step timeout (.handleTimeout s.now) = .ok s' ∧ Tracks timeout s' ∧
      (∀ key, s.Incomplete key → s'.Incomplete key ∨
        Leaves timeout s (.handleTimeout s.now) s' key) ∧
      DropsDue timeout s (.handleTimeout s.now) s' := by
  obtain ⟨protocol, drops, hok, hlist, hnodes, hkeys, htimes, hfragments⟩ := h.handleTimeout_ok
  have hqueue := s.queue_fire
  have hdrop : ∀ d ∈ drops, d.time = s.first d.key + timeout := by
    intro d hd
    have hkey := mem_map_of_mem (f := Drop.key) hd
    rw [hkeys] at hkey
    rw [htimes d hd]
    exact (h.mem_due_iff.mp hkey).2
  have hmem : ∀ t ∈ protocol.timeoutEventList, t ∈ s.protocol.timeoutEventList := by
    rw [hlist]
    exact fun t ht => (dropWhile_sublist _).subset ht
  have hnotdue : ∀ t ∈ protocol.timeoutEventList, t.key ∉
      (s.protocol.timeoutEventList.takeWhile fun t => t.expires = s.now).map
        FragmentTimeout.key := by
    have hnodup := h.nodup
    rw [listed, ← takeWhile_append_dropWhile (p := fun t => decide (t.expires = s.now))
      (l := s.protocol.timeoutEventList), map_append, ← hlist] at hnodup
    intro t ht hdue
    exact (nodup_append.mp hnodup).2.2 _ hdue _ (mem_map_of_mem ht) rfl
  have hdeadlines : deadlines { s with
      protocol := protocol
      pending := (protocol.timeoutEventList.head?.map FragmentTimeout.expires).toList ++
        s.pending.erase s.now
      dropped := s.dropped ++ drops.map fun d => (d, s.first d.key) } = s.deadlines.fire := by
    have hhead : s.deadlines.fire.queue.head?.map Prod.fst =
        protocol.timeoutEventList.head?.map FragmentTimeout.expires := by
      rw [hqueue, ← hlist, head?_map, Option.map_map]
      rfl
    have hpending : s.deadlines.fire.pending =
        (s.deadlines.fire.queue.head?.map Prod.fst).toList ++ s.pending.erase s.now := rfl
    rw [hhead] at hpending
    rw [← hlist] at hqueue
    show Deadlines.mk _ _ _ = Deadlines.mk _ s.deadlines.fire.queue s.deadlines.fire.pending
    rw [hqueue, hpending]
    rfl
  have hdropKeys : (drops.map fun d => (d, s.first d.key)).map (fun d => d.1.key) =
      (s.protocol.timeoutEventList.takeWhile fun t => t.expires = s.now).map
        FragmentTimeout.key := by
    rw [map_map, ← hkeys]
    rfl
  refine ⟨_, except_bind_eq_ok.mpr ⟨_, hok, rfl⟩, ⟨?_, ?_, ?_, ?_, ?_, ?_, ?_, ?_, ?_⟩,
    fun key hkey => ?_, drops.map fun d => (d, s.first d.key), rfl, ?_, fun key => ?_,
    fun key hkey => ?_⟩
  · rw [hdeadlines]
    exact h.sound.fire
  · rw [hdeadlines]
    exact h.within.fire
  · intro t ht
    show ∃ f, protocol.fragments t.key = _
    rw [hfragments, if_neg (hnotdue t ht)]
    exact h.held t (hmem t ht)
  · intro key f node hf
    change protocol.fragments key = _ at hf
    rw [hfragments] at hf
    split at hf
    · cases hf
    · next hdue =>
      obtain ⟨t, ht, rfl, hnode⟩ := h.known key f node hf
      rw [← takeWhile_append_dropWhile (p := fun t => decide (t.expires = s.now))
        (l := s.protocol.timeoutEventList), ← hlist] at ht
      refine ⟨t, (mem_append.mp ht).resolve_left fun htake => ?_, rfl, hnode⟩
      exact hdue (mem_map_of_mem htake)
  · show protocol.timeoutEventList.Pairwise _
    rw [hlist]
    exact h.nodes.sublist (dropWhile_sublist _)
  · intro t ht
    exact (h.used t (hmem t ht)).trans_eq hnodes.symm
  · intro t ht
    exact h.expires t (hmem t ht)
  · intro d hd
    rcases mem_append.mp hd with hd | hd
    · exact h.dropped d hd
    · obtain ⟨drop, hmem, rfl⟩ := mem_map.mp hd
      exact hdrop drop hmem
  · intro key f node hf
    change protocol.fragments key = _ at hf
    rw [hfragments] at hf
    split at hf
    · cases hf
    · exact h.gathered key f node hf
  · by_cases hdue : key ∈ (s.protocol.timeoutEventList.takeWhile fun t => t.expires = s.now).map
        FragmentTimeout.key
    · rw [← hkeys] at hdue
      obtain ⟨d, hd, rfl⟩ := mem_map.mp hdue
      refine .inr (.inr ⟨(d, s.first d.key), ?_, rfl, htimes d hd, ?_⟩)
      · exact mem_append_right _ (mem_map_of_mem hd)
      · exact (htimes d hd).symm.trans (hdrop d hd)
    · refine .inl ?_
      show (protocol.fragments key).isSome
      rw [hfragments, if_neg hdue]
      exact hkey
  · rw [hdropKeys]
    exact h.nodup.sublist ((takeWhile_sublist _).map _)
  · rw [hdropKeys, h.mem_due_iff]
    exact (and_iff_right rfl).symm
  · rw [hdropKeys] at hkey
    show ¬(protocol.fragments key).isSome
    rw [hfragments, if_pos hkey]
    exact Bool.false_ne_true

/-- Each step keeps the timeouts, and says what becomes of the datagrams. -/
theorem Tracks.step (h : Tracks timeout s) {a : Action} (ha : s.Allowed a) :
    ∃ s', s.step timeout a = .ok s' ∧ Tracks timeout s' ∧
      (∀ key, s.Incomplete key → s'.Incomplete key ∨ Leaves timeout s a s' key) ∧
      DropsDue timeout s a s' := by
  cases a with
  | fragment time packet header iif => exact h.fragment ha.1 ha.2 packet header iif
  | handleTimeout time =>
    have hwait := h.wait (h.sound.ahead time ha.1) ha.2
    exact hwait.event

end Simulation

/-! ## 7. Runs -/

theorem tracks_of_run (timeout : Nat) {Allows : Simulation → Action → Prop}
    (hallows : ∀ s a, Allows s a → s.Allowed a) {actions : List Action} {s : Simulation}
    (h : FallibleRun (Simulation.step timeout) Allows .initial actions s) : s.Tracks timeout := by
  refine h.invariant (Simulation.Tracks timeout) ?_ Simulation.tracks_initial
  intro s a s' hs ha hok
  obtain ⟨s'', hok', hs'', -⟩ := hs.step (hallows s a ha)
  rw [hok] at hok'
  exact Except.ok.inj hok' ▸ hs''

/-- In every run, and an event does not fail. -/
theorem timely_of_run (timeout : Nat) {actions : List Action} {s : Simulation}
    (h : FallibleRun (Simulation.step timeout) Simulation.Allowed .initial actions s) :
    Timely timeout s ∧ ∀ a, s.Allowed a → ∃ s', s.step timeout a = .ok s' ∧
      (∀ key, s.Incomplete key → s'.Incomplete key ∨ Leaves timeout s a s' key) ∧
      DropsDue timeout s a s' := by
  have htracks := tracks_of_run timeout (fun _ _ ha => ha) h
  refine ⟨htracks.timely, fun a ha => ?_⟩
  obtain ⟨s', hok, -, hleaves⟩ := htracks.step ha
  exact ⟨s', hok, hleaves⟩

/-- The second datagram waits behind the first one, which leaves an event for it. -/
theorem timely_of_run_two : ∃ s s', Timely 30 s ∧ s.dropped.map (fun d => d.1.time) = [35] ∧
    s.step 30 (.handleTimeout 37) = .ok s' ∧ DropsDue 30 s (.handleTimeout 37) s' ∧
    s'.dropped.map (fun d => d.1.time) = [35, 37] := by
  have hrun : ∃ s, FallibleRun (Simulation.step 30) Simulation.Allowed .initial
      [.fragment 5 [1] ⟨1, 2, 7, 17, 1, true, 0⟩ 0, .fragment 7 [1] ⟨1, 2, 8, 17, 1, true, 0⟩ 0,
        .handleTimeout 35] s ∧
      s.dropped.map (fun d => d.1.time) = [35] ∧ s.Allowed (.handleTimeout 37) ∧
      ∀ s', s.step 30 (.handleTimeout 37) = .ok s' →
        s'.dropped.map (fun d => d.1.time) = [35, 37] := by
    refine ⟨_, .cons ⟨by decide, by decide⟩ rfl (.cons ⟨by decide, by decide⟩ rfl
      (.cons ⟨by decide, by decide⟩ rfl (.nil _))), by decide, ⟨by decide, by decide⟩, fun s' h => ?_⟩
    rw [← Except.ok.inj h]
    decide
  obtain ⟨s, h, hdropped, ha, hlast⟩ := hrun
  obtain ⟨htimely, hsteps⟩ := timely_of_run 30 h
  obtain ⟨s', hok, -, hdrops⟩ := hsteps _ ha
  exact ⟨s, s', htimely, hdropped, hok, hdrops, hlast s' hok⟩

/-! ## 8. Round trip -/

/-- A fragment with the key is one of those that were sent. -/
def Action.Genuine (key : FragmentKey) (sent : List (Packet × Ipv4Header)) : Action → Prop
  | .fragment _ packet header _ => header.key = key → (packet, header) ∈ sent
  | .handleTimeout _ => True

theorem Simulation.arrived_step {timeout : Nat} {s s' : Simulation} {a : Action}
    {key : FragmentKey} {sent : List (Packet × Ipv4Header)} (ha : a.Genuine key sent)
    (hok : s.step timeout a = .ok s') (h : ∀ x ∈ s.arrived key, x ∈ sent) :
    ∀ x ∈ s'.arrived key, x ∈ sent := by
  cases a with
  | handleTimeout time =>
    obtain ⟨_, _, hok⟩ := except_bind_eq_ok.mp hok
    rw [← Except.ok.inj hok]
    exact h
  | fragment time packet header iif =>
    rw [Simulation.step] at hok
    rw [← Except.ok.inj hok]
    have hbegin : ∀ x ∈ (if (s.protocol.fragments header.key).isSome then s.arrived
        else update s.arrived header.key []) key, x ∈ sent := by
      split
      · exact h
      · by_cases hkey : key = header.key
        · rw [hkey, update_self]
          exact forall_mem_nil _
        · rw [update_of_ne hkey]
          exact h
    show ∀ x ∈ update _ header.key _ key, x ∈ sent
    by_cases hkey : key = header.key
    · rw [hkey, update_self]
      rw [hkey] at hbegin
      exact forall_mem_append.mpr ⟨hbegin, forall_mem_singleton.mpr (ha hkey.symm)⟩
    · rw [update_of_ne hkey]
      exact hbegin

/-- Also after timeouts: the datagram is complete exactly when every byte arrived since its first
fragment, and then `ProcessFragment` has it. -/
theorem round_trip_of_run (timeout : Nat) {payload : Packet} (hsize : payload.length ≤ 65515)
    {header : Ipv4Header} (hoffset : header.fragmentOffset = 0)
    (hlast : header.moreFragments = false) {mtus : List (BitVec 32)}
    (hmtus : ∀ mtu ∈ mtus, 68 ≤ mtu.toNat) {sent : List (Packet × Ipv4Header)}
    (hsent : path mtus [(payload, header)] = .ok sent) {actions : List Action} {s : Simulation}
    (h : FallibleRun (Simulation.step timeout)
      (fun s a => s.Allowed a ∧ a.Genuine header.key sent) .initial actions s)
    {time : Nat} {x : Packet × Ipv4Header} {iif : BitVec 32} (hx : x ∈ sent)
    (ha : s.Allowed (.fragment time x.1 x.2 iif)) :
    ((s.protocol.processFragment time timeout x.1 x.2 iif).2.1 = true ↔
      Received payload (s.since header.key ++ [x])) ∧
    ((s.protocol.processFragment time timeout x.1 x.2 iif).2.1 = true →
      (s.protocol.processFragment time timeout x.1 x.2 iif).2.2 = payload) := by
  obtain ⟨sent', hsent', htiling, -⟩ := tiling_of_path hsize hoffset hlast hmtus
  obtain rfl : sent = sent' := Except.ok.inj (hsent.symm.trans hsent')
  have hkey : x.2.key = header.key := (htiling.mem hx).1
  have htracks := tracks_of_run timeout (fun _ _ ha => ha.1) h
  have harrived : ∀ y ∈ s.arrived header.key, y ∈ sent :=
    h.invariant (fun s => ∀ y ∈ s.arrived header.key, y ∈ sent)
      (fun s a s' hs ha hok => Simulation.arrived_step ha.2 hok hs) (forall_mem_nil _)
  have hmine : ∀ y ∈ s.since header.key ++ [x], y ∈ sent := by
    refine forall_mem_append.mpr ⟨?_, forall_mem_singleton.mpr hx⟩
    unfold Simulation.since
    split
    · exact harrived
    · exact forall_mem_nil _
  obtain ⟨hentire, hpacket⟩ := isEntire_iff htiling hsize hmine
  obtain ⟨-, -, -, -, -, -, -, -, -, hanswer, -⟩ := htracks.step_fragment_eq ha.1 ha.2 x.1 x.2 iif
  rw [hkey] at hanswer
  rw [hanswer, ← hentire]
  split
  · next hyes => exact ⟨iff_of_true rfl hyes, fun _ => hpacket hyes⟩
  · next hno => exact ⟨iff_of_false Bool.false_ne_true hno, fun hfalse => nomatch hfalse⟩

/-- The two fragments of 60 bytes. -/
def twoFragments : List (Packet × Ipv4Header) :=
  [(replicate 48 5, ⟨1, 2, 7, 17, 48, true, 0⟩), (replicate 12 5, ⟨1, 2, 7, 17, 12, false, 48⟩)]

/-- A first try lacks its second fragment and times out. The second one completes. -/
theorem round_trip_of_run_again : ∃ s : Simulation,
    path [68] [(replicate 60 5, ⟨1, 2, 7, 17, 60, false, 0⟩)] = .ok twoFragments ∧
      s.dropped.length = 1 ∧
      (s.protocol.processFragment 41 30 (replicate 48 5) ⟨1, 2, 7, 17, 48, true, 0⟩ 0).2.2 =
        replicate 60 5 := by
  have hsent : path [68] [(replicate 60 5, ⟨1, 2, 7, 17, 60, false, 0⟩)] = .ok twoFragments := by
    decide +kernel
  have hrun : ∃ s : Simulation, FallibleRun (Simulation.step 30)
      (fun s a => s.Allowed a ∧
        a.Genuine (Ipv4Header.key ⟨1, 2, 7, 17, 60, false, 0⟩) twoFragments) .initial
      [.fragment 5 (replicate 48 5) ⟨1, 2, 7, 17, 48, true, 0⟩ 0, .handleTimeout 35,
        .fragment 40 (replicate 12 5) ⟨1, 2, 7, 17, 12, false, 48⟩ 0] s ∧
      s.dropped.length = 1 ∧
      s.Allowed (.fragment 41 (replicate 48 5) ⟨1, 2, 7, 17, 48, true, 0⟩ 0) ∧
      (s.protocol.processFragment 41 30 (replicate 48 5) ⟨1, 2, 7, 17, 48, true, 0⟩ 0).2.1 =
        true := by
    refine ⟨_, .cons ⟨⟨by decide, by decide⟩, fun _ => mem_cons_self⟩ rfl
      (.cons ⟨⟨by decide, by decide⟩, trivial⟩ rfl
        (.cons ⟨⟨by decide, by decide⟩, fun _ => mem_cons_of_mem _ mem_cons_self⟩ rfl (.nil _))),
      ?_, ⟨?_, ?_⟩, ?_⟩
    all_goals decide +kernel
  obtain ⟨s, h, hdropped, ha, hentire⟩ := hrun
  have hsize : (replicate 60 5 : Packet).length ≤ 65515 := by
    rw [length_replicate]
    decide
  have hround := round_trip_of_run 30 hsize rfl rfl (by simp) hsent h mem_cons_self ha
  exact ⟨s, hsent, hdropped, hround.2 hentire⟩

end MoeJit.Ipv4
