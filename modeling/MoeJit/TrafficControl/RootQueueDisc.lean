import MoeJit.TrafficControl.QueueDiscAccounts

/-!
# The root queue disc of a device

`Run` of the root queue disc with what may come between its steps. The send callback is code of the
device, which may stop and wake its queues and enqueue further packets; a nested `Run` returns at
once. Traces that fire while a packet is dequeued may stop and wake the queues too.

In every state between two operations the statistics of a queue disc of the tree are in order if and
only if it holds no packet for a peek (`accounts_iff_reachable`).
-/

namespace MoeJit.TrafficControl

variable {n : Nat}

/-! ## 1. The device queues -/

/-- `NetDeviceQueue`. -/
structure NetDeviceQueue where
  stoppedByDevice : Bool := false
  stoppedByQueueLimits : Bool := false

def NetDeviceQueue.isStopped (q : NetDeviceQueue) : Bool :=
  q.stoppedByDevice || q.stoppedByQueueLimits

structure Config where
  /-- `m_quota`. -/
  quota : UInt32
  /-- The device has a `NetDeviceQueueInterface`. -/
  flowControl : Bool

/-- Where the root queue disc is in `Run`. -/
inductive Control (n : Nat)
  | idle
  /-- At the head of the loop. -/
  | restart (quota : UInt32)
  /-- At the begin of `Transmit`. -/
  | transmit (quota : UInt32) (item : QueueDiscItem n)
  /-- In the send callback. -/
  | send (quota : UInt32) (item : QueueDiscItem n)

/-- The root queue disc, its device queues and `Run`. `obtained` and `passed` are records of what
`DequeuePacket` got from `DoDequeue` and of what went to the send callback, with
`set_local_draining` at that time; no modelled function reads them. -/
structure Root (n : Nat) where
  disc : QueueDisc n
  draining : Bool := false
  txQueues : Fin (n + 1) → NetDeviceQueue := fun _ => {}
  control : Control n := .idle
  obtained : List (QueueDiscItem n) := []
  passed : List (QueueDiscItem n × Bool) := []

namespace Control

/-- Code outside the queue disc may run. -/
def Open : Control n → Prop
  | idle => True
  | send _ _ => True
  | _ => False

/-- The packet between `DequeuePacket` and the send callback. -/
def inHand : Control n → List (QueueDiscItem n)
  | transmit _ item => [item]
  | _ => []

end Control

variable (cfg : Config)

/-- The transmission queue exists and `IsStopped`. -/
def Root.stopped (w : Root n) (i : Fin (n + 1)) : Bool :=
  cfg.flowControl && (w.txQueues i).isStopped

/-- A call of `Run`. -/
def run (w : Root n) : Root n :=
  if w.draining then w
  else
    match w.control with
    | .idle => { w with control := .restart cfg.quota }
    | _ => w

/-- `set_drain`. -/
def setDrain (value : Bool) (w : Root n) : Root n := run cfg { w with draining := value }

def setQueue (w : Root n) (i : Fin (n + 1)) (q : NetDeviceQueue) : Root n :=
  { w with txQueues := Function.update w.txQueues i q }

/-- `NetDeviceQueue::Wake`, with `Run` as the wake callback. -/
def wake (w : Root n) (i : Fin (n + 1)) : Root n :=
  let w' := setQueue w i { w.txQueues i with stoppedByDevice := false }
  if (w.txQueues i).stoppedByDevice then run cfg w' else w'

/-- `NotifyTransmittedBytes` when the queue limits have room again. -/
def limitWake (w : Root n) (i : Fin (n + 1)) : Root n :=
  let w' := setQueue w i { w.txQueues i with stoppedByQueueLimits := false }
  if (w.txQueues i).stoppedByQueueLimits then run cfg w' else w'

/-- `Requeue`. -/
def requeue (item : QueueDiscItem n) (d : QueueDisc n) : QueueDisc n :=
  ⟨{ d.self with
    requeued := some item
    stats := { d.self.stats with totalRequeued := d.self.stats.totalRequeued + amount item } },
    d.classes⟩

/-- The end of `Transmit` and of the body of the loop. -/
def transmitted (quota : UInt32) (item : QueueDiscItem n) (w : Root n) : Control n :=
  if w.disc.self.nPackets = 0 ∨ w.stopped cfg item.txQueueIndex = true then .idle
  else if quota - 1 ≤ 0 then .idle
  else .restart (quota - 1)

/-- A call from outside, or a step of `Run`. -/
inductive Event (n : Nat)
  | enqueue (item : QueueDiscItem n)
  /-- `Enqueue` and `Run`, as the traffic control layer calls them. -/
  | send (item : QueueDiscItem n)
  | peek
  | dequeue
  | run
  | setDrain (value : Bool)
  | stop (i : Fin (n + 1))
  | wake (i : Fin (n + 1))
  | limitStop (i : Fin (n + 1))
  | limitWake (i : Fin (n + 1))
  | dequeuePacket
  | transmit
  | sent

inductive Step : Root n → Event n → Root n → Prop
  | enqueue {w : Root n} {item : QueueDiscItem n} {traces : List (Trace n)} {d : QueueDisc n} :
      w.control.Open → Enqueue item w.disc traces d → Step w (.enqueue item) { w with disc := d }
  | send {w : Root n} {item : QueueDiscItem n} {traces : List (Trace n)} {d : QueueDisc n} :
      w.control.Open → Enqueue item w.disc traces d →
      Step w (.send item) (run cfg { w with disc := d })
  | peek {w : Root n} {seen : List (QueueDiscItem n)} {traces : List (Trace n)}
      {d : QueueDisc n} :
      w.control.Open → Take .peek w.disc traces seen d → Step w .peek { w with disc := d }
  | dequeue {w : Root n} {got : List (QueueDiscItem n)} {traces : List (Trace n)}
      {d : QueueDisc n} :
      w.control.Open → Take .dequeue w.disc traces got d →
      Step w .dequeue { w with disc := d.handOver got }
  | run {w : Root n} : w.control.Open → Step w .run (run cfg w)
  | setDrain {w : Root n} {value : Bool} :
      w.control.Open → Step w (.setDrain value) (setDrain cfg value w)
  | stop {w : Root n} {i : Fin (n + 1)} :
      Step w (.stop i) (setQueue w i { w.txQueues i with stoppedByDevice := true })
  | wake {w : Root n} {i : Fin (n + 1)} : Step w (.wake i) (wake cfg w i)
  | limitStop {w : Root n} {i : Fin (n + 1)} :
      Step w (.limitStop i) (setQueue w i { w.txQueues i with stoppedByQueueLimits := true })
  | limitWake {w : Root n} {i : Fin (n + 1)} : Step w (.limitWake i) (limitWake cfg w i)
  /-- The queue of the requeued packet is stopped. -/
  | requeuedStopped {w : Root n} {quota : UInt32} {item : QueueDiscItem n} :
      w.control = .restart quota → w.disc.self.requeued = some item →
      w.stopped cfg item.txQueueIndex = true →
      Step w .dequeuePacket { w with control := .idle }
  /-- The requeued packet. -/
  | requeuedNext {w : Root n} {quota : UInt32} {item : QueueDiscItem n} {m : Members n}
      {traces : List (Trace n)} :
      w.control = .restart quota → w.disc.self.requeued = some item →
      w.stopped cfg item.txQueueIndex = false → release item w.disc.self = (m, traces) →
      Step w .dequeuePacket { w with
        disc := ⟨m, w.disc.classes⟩, control := .transmit quota item }
  /-- The only queue of the device is stopped. -/
  | queueStopped {w : Root n} {quota : UInt32} :
      w.control = .restart quota → w.disc.self.requeued = none → n = 0 →
      w.stopped cfg 0 = true → Step w .dequeuePacket { w with control := .idle }
  /-- `Dequeue` returns no packet. -/
  | noPacket {w : Root n} {quota : UInt32} {traces : List (Trace n)} {d : QueueDisc n} :
      w.control = .restart quota → w.disc.self.requeued = none →
      (n = 0 → w.stopped cfg 0 = false) → Take .dequeue w.disc traces [] d →
      Step w .dequeuePacket { w with disc := d, control := .idle }
  /-- A packet from `Dequeue`. -/
  | nextPacket {w : Root n} {quota : UInt32} {item : QueueDiscItem n} {traces : List (Trace n)}
      {d : QueueDisc n} :
      w.control = .restart quota → w.disc.self.requeued = none →
      (n = 0 → w.stopped cfg 0 = false) → Take .dequeue w.disc traces [item] d →
      Step w .dequeuePacket { w with
        disc := d, control := .transmit quota item, obtained := w.obtained ++ [item] }
  | requeue {w : Root n} {quota : UInt32} {item : QueueDiscItem n} :
      w.control = .transmit quota item → w.stopped cfg item.txQueueIndex = true →
      Step w .transmit { w with disc := requeue item w.disc, control := .idle }
  /-- The packet goes to the send callback. -/
  | pass {w : Root n} {quota : UInt32} {item : QueueDiscItem n} :
      w.control = .transmit quota item → w.stopped cfg item.txQueueIndex = false →
      Step w .transmit { w with
        disc := w.disc.handOver [item]
        control := .send quota item
        passed := w.passed ++ [(item, w.draining)] }
  /-- The send callback returns. -/
  | sent {w : Root n} {quota : UInt32} {item : QueueDiscItem n} :
      w.control = .send quota item →
      Step w .sent { w with control := transmitted cfg quota item w }

/-- A tree of queue discs without packets. -/
inductive Fresh : QueueDisc n → Prop
  | mk {k : Nat} {classes : List (QueueDisc n)} : (∀ c ∈ classes, Fresh c) →
      Fresh ⟨{ queues := List.replicate k [] }, classes⟩

/-- The states of the runs from a fresh tree. -/
inductive Reachable : Root n → Prop
  | init {d : QueueDisc n} : Fresh d → Reachable { disc := d }
  | step {w w' : Root n} {event : Event n} :
      Reachable w → Step cfg w event w' → Reachable w'

/-! ## 2. The statistics -/

/-- The counters of the tree are in order, and a packet is in at most one hand. -/
structure InOrder (w : Root n) : Prop where
  sound : Sound w.disc.self w.disc.classes (w.disc.self.requeued.toList ++ w.control.inHand)
  held : w.disc.self.peeked = true → w.disc.self.requeued ≠ none
  hand : w.control.inHand ≠ [] → w.disc.self.requeued = none
  classes : ∀ c ∈ w.disc.classes, Rest c

variable {w : Root n} {d : QueueDisc n}

theorem InOrder.congr {w' : Root n} (h : InOrder w) (hdisc : w'.disc = w.disc)
    (hhand : w'.control.inHand = w.control.inHand) : InOrder w' where
  sound := by
    rw [hdisc, hhand]
    exact h.sound
  held := by
    rw [hdisc]
    exact h.held
  hand := by
    rw [hdisc, hhand]
    exact h.hand
  classes := by
    rw [hdisc]
    exact h.classes

theorem Control.Open.inHand {control : Control n} (h : control.Open) : control.inHand = [] := by
  cases control with
  | transmit => exact h.elim
  | _ => rfl

theorem run_disc (w : Root n) : (run cfg w).disc = w.disc := by
  unfold run
  split
  · rfl
  · split <;> rfl

theorem run_inHand (w : Root n) : (run cfg w).control.inHand = w.control.inHand := by
  unfold run
  split
  · rfl
  · split
    · next hidle =>
      rw [hidle]
      rfl
    · rfl

theorem InOrder.run {w' : Root n} (h : InOrder w) (hdisc : w'.disc = w.disc)
    (hcontrol : w'.control = w.control) : InOrder (run cfg w') :=
  h.congr ((run_disc cfg w').trans hdisc) ((run_inHand cfg w').trans (congrArg _ hcontrol))

/-- With no packet in hand, the counters are those for the tree. -/
theorem InOrder.sound_of_open (h : InOrder w) (hhand : w.control.inHand = []) :
    Sound w.disc.self w.disc.classes w.disc.self.requeued.toList := by
  have hsound := h.sound
  rwa [hhand, List.append_nil] at hsound

theorem InOrder.net_eq (h : InOrder w) (hhand : w.control.inHand = []) :
    w.disc.net = total w.disc.stored := by
  have hsound := h.sound_of_open hhand
  have hclasses := h.classes
  cases hdisc : w.disc with
  | mk d classes =>
    rw [hdisc] at hsound hclasses
    exact hsound.net_eq fun c hc => (hclasses c hc).net_eq

theorem InOrder.enqueue {item : QueueDiscItem n} {traces : List (Trace n)} (h : InOrder w)
    (hopen : w.control.Open) (henq : Enqueue item w.disc traces d) :
    InOrder { w with disc := d } := by
  obtain ⟨hsound, hreq, hpeek, -, -, -, hclasses⟩ := enqueue_spec henq h.sound h.classes
  refine ⟨?_, ?_, fun hne => absurd hopen.inHand hne, hclasses⟩
  · rw [← hreq] at hsound
    exact hsound
  · show d.self.peeked = true → d.self.requeued ≠ none
    rw [hreq, hpeek]
    exact h.held

/-- Packets that `Dequeue` returns leave the root queue disc with nothing held. -/
theorem InOrder.dequeue {w : Root n} {got : List (QueueDiscItem n)} {traces : List (Trace n)}
    {d : QueueDisc n} (h : InOrder w) (hhand : w.control.inHand = [])
    (hdeq : Take .dequeue w.disc traces got d) :
    Sound d.self d.classes got ∧ d.self.requeued = none ∧ d.self.peeked = false ∧
      ∀ c ∈ d.classes, Rest c := by
  obtain ⟨⟨hsound, hnone, hpeek, -⟩, hkeeps⟩ := take_spec hdeq (h.sound_of_open hhand) h.classes
  refine ⟨hsound, hnone, ?_, hkeeps.classes⟩
  rw [hpeek]
  cases hreq : w.disc.self.requeued with
  | none =>
    rw [Bool.eq_false_of_not_eq_true fun hpeek => h.held hpeek hreq]
    rfl
  | some item => exact Bool.and_false _

theorem InOrder.of_none (hsound : Sound w.disc.self w.disc.classes w.control.inHand)
    (hnone : w.disc.self.requeued = none) (hpeek : w.disc.self.peeked = false)
    (hclasses : ∀ c ∈ w.disc.classes, Rest c) : InOrder w where
  sound := by
    rw [hnone]
    exact hsound
  held := fun htrue => absurd (hpeek.symm.trans htrue) Bool.false_ne_true
  hand := fun _ => hnone
  classes := hclasses

theorem InOrder.transmit {quota : UInt32} {item : QueueDiscItem n} (h : InOrder w)
    (hcontrol : w.control = .transmit quota item) : Sound w.disc.self w.disc.classes [item] ∧
      w.disc.self.requeued = none ∧ w.disc.self.peeked = false := by
  have hnone : w.disc.self.requeued = none := h.hand (by
    rw [hcontrol]
    exact List.cons_ne_nil item [])
  have hsound := h.sound
  rw [hnone, hcontrol] at hsound
  exact ⟨hsound, hnone, Bool.eq_false_of_not_eq_true fun hpeek => h.held hpeek hnone⟩

theorem step_inOrder {w' : Root n} {event : Event n} (hstep : Step cfg w event w') (h : InOrder w) :
    InOrder w' := by
  cases hstep with
  | enqueue hopen henq => exact h.enqueue hopen henq
  | send hopen henq => exact (h.enqueue hopen henq).run cfg rfl rfl
  | @peek seen traces d hopen hpeek =>
    obtain ⟨⟨hsound, hheld⟩, hkeeps⟩ :=
      take_spec hpeek ⟨h.sound_of_open hopen.inHand, h.held⟩ h.classes
    refine ⟨?_, ?_, fun hne => absurd hopen.inHand hne, hkeeps.classes⟩
    · show Sound d.self d.classes (d.self.requeued.toList ++ w.control.inHand)
      rwa [hopen.inHand, List.append_nil]
    · show d.self.peeked = true → d.self.requeued ≠ none
      rcases hheld with ⟨hreq, hpeek⟩ | ⟨-, hheld⟩
      · rw [hreq, hpeek]
        exact h.held
      · exact hheld.mpr
  | @dequeue got traces d hopen hdeq =>
    obtain ⟨hsound, hnone, hpeek, hclasses⟩ := h.dequeue hopen.inHand hdeq
    refine .of_none ?_ hnone hpeek hclasses
    show Sound _ _ w.control.inHand
    rw [hopen.inHand]
    exact hsound.handOver hpeek
  | run _ | setDrain _ => exact h.run cfg rfl rfl
  | stop | limitStop => exact h.congr rfl rfl
  | wake =>
    unfold TrafficControl.wake
    simp only
    split
    · exact h.run cfg rfl rfl
    · exact h.congr rfl rfl
  | limitWake =>
    unfold TrafficControl.limitWake
    simp only
    split
    · exact h.run cfg rfl rfl
    · exact h.congr rfl rfl
  | requeuedStopped hcontrol _ _ | queueStopped hcontrol _ _ _ =>
    exact h.congr rfl (by rw [hcontrol]; rfl)
  | requeuedNext hcontrol hreq _ hrelease =>
    have hsound := h.sound
    rw [hreq, hcontrol] at hsound
    obtain ⟨hsound', hnone, hpeek, -⟩ := Sound.release hsound hrelease
    exact .of_none hsound' hnone hpeek h.classes
  | noPacket hcontrol _ _ hdeq | nextPacket hcontrol _ _ hdeq =>
    obtain ⟨hsound, hnone, hpeek, hclasses⟩ := h.dequeue (by rw [hcontrol]; rfl) hdeq
    exact .of_none hsound hnone hpeek hclasses
  | @requeue quota item hcontrol _ =>
    obtain ⟨hsound, hnone, hpeek⟩ := h.transmit hcontrol
    obtain ⟨hrecv, hdropped, hsize, hcontent, hsent⟩ := hsound
    exact ⟨⟨hrecv, hdropped, hsize, hcontent, hsent⟩,
      fun _ => Option.some_ne_none item, fun hne => absurd rfl hne, h.classes⟩
  | pass hcontrol _ =>
    obtain ⟨hsound, hnone, hpeek⟩ := h.transmit hcontrol
    exact .of_none (hsound.handOver hpeek) hnone hpeek h.classes
  | sent hcontrol =>
    refine h.congr rfl ?_
    rw [hcontrol, transmitted]
    split
    · rfl
    · split <;> rfl

theorem Fresh.rest (h : Fresh d) : Rest d ∧ d.net = 0 := by
  induction h with
  | @mk k classes _ ih =>
    have hempty : total (List.replicate k ([] : List (QueueDiscItem n))).flatten = 0 := by
      rw [List.flatten_replicate_nil, total_nil]
    have hnet : (classes.map QueueDisc.net).sum = 0 := by
      rw [List.map_congr_left fun c hc => (ih c hc).2]
      simp [List.map_const', List.sum_replicate]
    have hsize : SizeOk ({ queues := List.replicate k [] } : Members n) := by
      show ((0 : UInt32), (0 : UInt32)) = shrink (0 - 0)
      decide
    refine ⟨.mk ⟨rfl, rfl, hsize, ?_, rfl⟩ (iff_of_false (fun hne => hne rfl) Bool.false_ne_true)
      fun c hc => (ih c hc).1, sub_self 0⟩
    show (0 : Count) - 0 = total (List.replicate k []).flatten + _ + _
    rw [hempty, hnet]
    show (0 : Count) - 0 = 0 + 0 + if false = true then _ else 0
    rw [if_neg Bool.false_ne_true]
    decide

theorem reachable_inOrder (h : Reachable cfg w) : InOrder w := by
  induction h with
  | init hfresh =>
    obtain ⟨hsound, hheld, hclasses⟩ := hfresh.rest.1.out
    exact ⟨(List.append_nil _).symm ▸ hsound, hheld.mpr, fun hne => absurd rfl hne, hclasses⟩
  | step _ hstep ih => exact step_inOrder cfg hstep ih

/-- `x` is a queue disc of the tree. -/
inductive Node (x : QueueDisc n) : QueueDisc n → Prop
  | here : Node x x
  | child {d c : QueueDisc n} : c ∈ d.classes → Node x c → Node x d

theorem Rest.node {x : QueueDisc n} (h : Node x d) (hrest : Rest d) : Rest x := by
  induction h with
  | here => exact hrest
  | child hc _ ih => exact ih (hrest.out.2.2 _ hc)

/-- After every operation the statistics of a queue disc satisfy the identities if and only if it
holds no packet for a peek, as long as its words can count what it stores and has sent. -/
theorem accounts_iff_reachable {w : Root n} (h : Reachable cfg w) (hhand : w.control.inHand = [])
    {x : QueueDisc n} (hnode : Node x w.disc) :
    Accounts x ↔ x.self.peeked = false ∧ Within x := by
  have hin := reachable_inOrder cfg h
  cases hnode with
  | here =>
    exact accounts_iff (hin.sound_of_open hhand) hin.held (hin.net_eq hhand)
  | child hc hnode =>
    have hrest := Rest.node hnode (hin.classes _ hc)
    exact accounts_iff hrest.out.1 hrest.out.2.1.mpr hrest.net_eq

/-- The child of the root stores a packet. -/
theorem accounts_iff_reachable_child : ∃ (w : Root 0) (x : QueueDisc 0),
    Reachable ⟨64, true⟩ w ∧ Node x w.disc ∧ x.self.nPackets = 1 ∧ Accounts x := by
  have hreach := @Reachable.step 0 ⟨64, true⟩ _ _ _
    (.init (.mk (k := 0) (List.forall_mem_singleton.mpr (.mk (k := 1) (List.forall_mem_nil _)))))
    (.enqueue trivial (.child (j := 0) rfl
      (@Enqueue.queue 0 ⟨7, 100, 0⟩ _ _ _ 0 [] [] _ rfl rfl) rfl))
  refine ⟨_, _, hreach, .child List.mem_cons_self .here, rfl, ?_⟩
  refine (accounts_iff_reachable ⟨64, true⟩ hreach rfl (.child List.mem_cons_self .here)).mpr
    ⟨rfl, ?_, ?_, ?_, ?_⟩ <;> decide

/-- After one packet and a look at it `GetStats` counts `2 ^ 32 - 1` packets as sent. -/
theorem sent_after_peek : ∃ w : Root 0, Reachable ⟨64, true⟩ w ∧ w.control.inHand = [] ∧
    w.disc.self.sent = [] ∧ (totalSent w.disc.self).1 = 2 ^ 32 - 1 ∧ ¬ Accounts w.disc := by
  have hreach := @Reachable.step 0 ⟨64, true⟩ _ _ _
    (.init (.mk (k := 1) (List.forall_mem_nil _)))
    (.enqueue trivial (@Enqueue.queue 0 ⟨7, 100, 0⟩ _ _ _ 0 [] [] _ rfl rfl))
  have hpeek := hreach.step (.peek trivial (.peekNext rfl (.next rfl
    (@Take.queue _ _ _ _ _ 0 _ [] [] _ _ _ .start rfl rfl) (Nat.le_refl 1))))
  refine ⟨_, hpeek, rfl, rfl, by decide, fun haccounts => ?_⟩
  exact absurd haccounts.sentPackets (by decide)

end MoeJit.TrafficControl
