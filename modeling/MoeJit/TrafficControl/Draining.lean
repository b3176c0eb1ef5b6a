import MoeJit.TrafficControl.RootQueueDisc

/-!
# Draining

A root queue disc on a device with one transmission queue, driven by `Enqueue` followed by `Run`,
`set_drain` and the device. `Run` gives up when its quota is used up and nothing calls it again, and
it does not look at `set_local_draining` once it has begun. Apart from that no packet is left behind
(`nothing_stranded`).
-/

namespace MoeJit.TrafficControl

open List

variable (cfg : Config)

/-! ## 1. Runs -/

/-- The calls from the traffic control layer, from `set_drain` and from the device, and the steps of
`Run`. -/
def Event.Driven : Event 0 → Prop
  | .enqueue _ | .peek | .dequeue => False
  | _ => True

/-- The states that are reached by steps that satisfy a condition. -/
inductive Run (ok : Root 0 → Event 0 → Root 0 → Prop) : Root 0 → Prop
  | init {d : QueueDisc 0} : Fresh d → Run ok { disc := d }
  | step {w w' : Root 0} {event : Event 0} :
      Run ok w → Step cfg w event w' → event.Driven → ok w event w' → Run ok w'

/-- Neither the queue disc nor `m_requeued` holds a packet. -/
def Root.Empty (w : Root 0) : Prop := w.disc.stored = [] ∧ w.disc.self.requeued = none

/-- `Run` is not in progress, and something could be sent. -/
def Root.Ready (w : Root 0) : Prop :=
  w.control = .idle ∧ w.draining = false ∧ w.stopped cfg 0 = false

/-- The steps that do no harm. -/
structure Fits (w : Root 0) (event : Event 0) (w' : Root 0) : Prop where
  /-- Draining begins while no `Run` is in progress. -/
  drain : event = .setDrain true → w.control = .idle
  /-- The quota is not used up before the packets. -/
  quota : ∀ quota item, event = .sent → w.control = .send quota item → quota - 1 ≤ 0 →
    w.stopped cfg 0 = true ∨ w.disc.stored = []
  /-- `m_nPackets` counts all packets. -/
  words : w.disc.stored.length < 2 ^ 32
  /-- `DoDequeue` returns a packet if there is one. -/
  conserving : event = .dequeuePacket → w'.control = .idle → w.stopped cfg 0 = false →
    w'.disc.stored = []

variable {w w' : Root 0}

theorem Run.reachable {ok : Root 0 → Event 0 → Root 0 → Prop} (h : Run cfg ok w) :
    Reachable cfg w := by
  induction h with
  | init hfresh => exact .init hfresh
  | step _ hstep _ _ ih => exact ih.step hstep

/-! ## 2. Order -/

/-- What `DequeuePacket` got went to the send callback in this order, up to the one packet that is
in hand or requeued. -/
def InTurn (w : Root 0) : Prop :=
  w.obtained = w.passed.map Prod.fst ++ w.control.inHand ++ w.disc.self.requeued.toList

theorem InTurn.congr (h : InTurn w) (hobtained : w'.obtained = w.obtained)
    (hpassed : w'.passed = w.passed) (hhand : w'.control.inHand = w.control.inHand)
    (hreq : w'.disc.self.requeued = w.disc.self.requeued) : InTurn w' := by
  rw [InTurn, hobtained, hpassed, hhand, hreq]
  exact h

theorem run_obtained {n : Nat} (cfg : Config) (w : Root n) : (run cfg w).obtained = w.obtained := by
  unfold run
  split
  · rfl
  · split <;> rfl

theorem run_passed {n : Nat} (cfg : Config) (w : Root n) : (run cfg w).passed = w.passed := by
  unfold run
  split
  · rfl
  · split <;> rfl

theorem InTurn.run (h : InTurn w) (hobtained : w'.obtained = w.obtained)
    (hpassed : w'.passed = w.passed) (hcontrol : w'.control = w.control)
    (hreq : w'.disc.self.requeued = w.disc.self.requeued) : InTurn (run cfg w') :=
  h.congr ((run_obtained cfg w').trans hobtained) ((run_passed cfg w').trans hpassed)
    ((run_inHand cfg w').trans (congrArg _ hcontrol))
    ((congrArg (·.self.requeued) (run_disc cfg w')).trans hreq)

theorem InTurn.restart {quota : UInt32} (h : InTurn w) (hcontrol : w.control = .restart quota) :
    w.obtained = w.passed.map Prod.fst ++ w.disc.self.requeued.toList := by
  rw [InTurn, hcontrol] at h
  rw [h]
  exact congrArg (· ++ _) (append_nil _)

theorem step_inTurn {event : Event 0} (hstep : Step cfg w event w') (hdriven : event.Driven)
    (hin : InOrder w) (h : InTurn w) : InTurn w' := by
  cases hstep with
  | enqueue | peek | dequeue => exact hdriven.elim
  | send hopen henq =>
    obtain ⟨-, hreq, -⟩ := enqueue_spec henq hin.sound hin.classes
    exact h.run cfg rfl rfl rfl hreq
  | run | setDrain => exact h.run cfg rfl rfl rfl rfl
  | stop | limitStop => exact h.congr rfl rfl rfl rfl
  | wake =>
    unfold TrafficControl.wake
    simp only
    split
    · exact h.run cfg rfl rfl rfl rfl
    · exact h.congr rfl rfl rfl rfl
  | limitWake =>
    unfold TrafficControl.limitWake
    simp only
    split
    · exact h.run cfg rfl rfl rfl rfl
    · exact h.congr rfl rfl rfl rfl
  | requeuedStopped hcontrol | queueStopped hcontrol =>
    exact h.congr rfl rfl (by rw [hcontrol]; rfl) rfl
  | @requeuedNext quota item m traces hcontrol hreq _ hrelease =>
    have hturn := h.restart hcontrol
    have hsound := hin.sound
    rw [hreq, hcontrol] at hsound
    obtain ⟨-, hnone, -⟩ := Sound.release hsound hrelease
    show w.obtained = w.passed.map Prod.fst ++ [item] ++ m.requeued.toList
    rw [hturn, hreq, hnone, Option.toList_none, Option.toList_some, append_nil]
  | noPacket hcontrol hreq _ hdeq =>
    obtain ⟨-, hnone, -⟩ := hin.dequeue (by rw [hcontrol]; rfl) hdeq
    exact h.congr rfl rfl (by rw [hcontrol]; rfl) (hnone.trans hreq.symm)
  | @nextPacket quota item traces d hcontrol hreq _ hdeq =>
    have hturn := h.restart hcontrol
    obtain ⟨-, hnone, -⟩ := hin.dequeue (by rw [hcontrol]; rfl) hdeq
    show w.obtained ++ [item] = w.passed.map Prod.fst ++ [item] ++ d.self.requeued.toList
    rw [hturn, hreq, hnone, Option.toList_none, append_nil, append_nil]
  | @requeue quota item hcontrol _ =>
    obtain ⟨-, hnone, -⟩ := hin.transmit hcontrol
    rw [InTurn, hcontrol, hnone] at h
    show w.obtained = w.passed.map Prod.fst ++ [] ++ [item]
    rw [h, append_nil]
    exact append_nil _
  | @pass quota item hcontrol _ =>
    rw [InTurn, hcontrol] at h
    show w.obtained = (w.passed ++ [(item, w.draining)]).map Prod.fst ++ [] ++ _
    rw [h, map_append, append_nil]
    rfl
  | sent hcontrol =>
    refine h.congr rfl rfl ?_ rfl
    rw [hcontrol, transmitted]
    split
    · rfl
    · split <;> rfl

/-! ## 3. Packets left behind -/

/-- `Run` is in progress only while draining is off, and nothing waits for a `Run` that does not
come. -/
structure Kept (w : Root 0) : Prop where
  running : w.control ≠ .idle → w.draining = false
  passed : ∀ p ∈ w.passed, p.2 = false
  sending : ∀ quota item, w.control = .send quota item → w.disc.self.requeued = none
  ready : w.Ready cfg → w.Empty

theorem Kept.congr (h : Kept cfg w) (hdisc : w'.disc = w.disc)
    (hdraining : w'.draining = w.draining) (hcontrol : w'.control = w.control)
    (hpassed : w'.passed = w.passed) (hstopped : w'.stopped cfg 0 = false → w.stopped cfg 0 = false)
    : Kept cfg w' where
  running := by
    rw [hcontrol, hdraining]
    exact h.running
  passed := by
    rw [hpassed]
    exact h.passed
  sending := by
    rw [hcontrol, hdisc]
    exact h.sending
  ready := by
    rintro ⟨hidle, hoff, hopen⟩
    rw [Root.Empty, hdisc]
    exact h.ready ⟨hcontrol.symm.trans hidle, hdraining.symm.trans hoff, hstopped hopen⟩

/-- A call of `Run` does not leave packets behind: it begins, or draining is on. -/
theorem Kept.run (hrunning : w.control ≠ .idle → w.draining = false)
    (hpassed : ∀ p ∈ w.passed, p.2 = false)
    (hsending : ∀ quota item, w.control = .send quota item → w.disc.self.requeued = none) :
    Kept cfg (run cfg w) := by
  unfold TrafficControl.run
  split
  · next hon =>
    refine ⟨hrunning, hpassed, hsending, fun hready => ?_⟩
    exact absurd (hready.2.1.symm.trans hon) Bool.false_ne_true
  · next hoff =>
    split
    · exact ⟨fun _ => Bool.eq_false_of_not_eq_true hoff, hpassed, fun _ _ heq => (by cases heq),
        fun hready => by cases hready.1⟩
    · next hbusy => exact ⟨hrunning, hpassed, hsending, fun hready => absurd hready.1 hbusy⟩

theorem stopped_setQueue_of_le {q : NetDeviceQueue}
    (hle : q.isStopped = false → (w.txQueues 0).isStopped = false) :
    (setQueue w 0 q).stopped cfg 0 = false → w.stopped cfg 0 = false := by
  simp only [Root.stopped, setQueue, Function.update_self, Bool.and_eq_false_imp]
  exact fun hopen hflow => hle (hopen hflow)

/-- In the send callback `m_nPackets` tells whether a packet is stored. -/
theorem InOrder.stored_eq_nil (h : InOrder w) (hhand : w.control.inHand = [])
    (hwords : w.disc.stored.length < 2 ^ 32) (hzero : w.disc.self.nPackets = 0) :
    w.disc.stored = [] := by
  have hsize : w.disc.self.nPackets = (total w.disc.stored).1 :=
    (congrArg Prod.fst h.sound.size).trans (congrArg Prod.fst (h.net_eq hhand))
  rw [hzero, total_fst] at hsize
  have hlen := (toNat_ofNat_iff _).mpr hwords
  rw [← hsize] at hlen
  exact eq_nil_of_length_eq_zero hlen.symm

theorem step_kept {event : Event 0} (hstep : Step cfg w event w') (hdriven : event.Driven)
    (hfits : Fits cfg w event w') (hin : InOrder w) (h : Kept cfg w) : Kept cfg w' := by
  cases hstep with
  | enqueue | peek | dequeue => exact hdriven.elim
  | send hopen henq =>
    obtain ⟨-, hreq, -⟩ := enqueue_spec henq hin.sound hin.classes
    exact .run cfg h.running h.passed fun quota item hsend =>
      hreq.trans (h.sending quota item hsend)
  | run => exact .run cfg h.running h.passed h.sending
  | @setDrain value _ =>
    refine .run cfg (fun hbusy => ?_) h.passed h.sending
    cases value with
    | true => exact absurd (hfits.drain rfl) hbusy
    | false => rfl
  | @stop i =>
    obtain rfl : i = 0 := Fin.fin_one_eq_zero i
    exact h.congr cfg rfl rfl rfl rfl (stopped_setQueue_of_le cfg fun hopen => by cases hopen)
  | @wake i | @limitWake i =>
    obtain rfl : i = 0 := Fin.fin_one_eq_zero i
    simp only [TrafficControl.wake, TrafficControl.limitWake]
    split
    · exact .run cfg h.running h.passed h.sending
    · next hnot =>
      refine h.congr cfg rfl rfl rfl rfl (stopped_setQueue_of_le cfg fun hopen => ?_)
      rw [NetDeviceQueue.isStopped, Bool.eq_false_of_not_eq_true hnot]
      exact hopen
  | @limitStop i =>
    obtain rfl : i = 0 := Fin.fin_one_eq_zero i
    refine h.congr cfg rfl rfl rfl rfl (stopped_setQueue_of_le cfg fun hopen => ?_)
    rw [NetDeviceQueue.isStopped, Bool.or_true] at hopen
    cases hopen
  | @requeuedStopped quota item hcontrol _ hstopped | @requeue quota item hcontrol hstopped =>
    refine ⟨fun hne => absurd rfl hne, h.passed, fun _ _ heq => (by cases heq), fun hready => ?_⟩
    rw [Fin.fin_one_eq_zero item.txQueueIndex] at hstopped
    exact absurd (hready.2.2.symm.trans hstopped) Bool.false_ne_true
  | requeuedNext hcontrol | nextPacket hcontrol =>
    exact ⟨fun _ => h.running (by simp [hcontrol]), h.passed, fun _ _ heq => (by cases heq),
      fun hready => by cases hready.1⟩
  | queueStopped _ _ _ hstopped =>
    exact ⟨fun hne => absurd rfl hne, h.passed, fun _ _ heq => (by cases heq),
      fun hready => absurd (hready.2.2.symm.trans hstopped) Bool.false_ne_true⟩
  | noPacket hcontrol _ hopen hdeq =>
    obtain ⟨-, hnone, -⟩ := hin.dequeue (by rw [hcontrol]; rfl) hdeq
    exact ⟨fun hne => absurd rfl hne, h.passed, fun _ _ heq => (by cases heq),
      fun _ => ⟨hfits.conserving rfl rfl (hopen rfl), hnone⟩⟩
  | @pass quota item hcontrol _ =>
    have hoff : w.draining = false := h.running (by simp [hcontrol])
    obtain ⟨-, hnone, -⟩ := hin.transmit hcontrol
    refine ⟨fun _ => hoff, ?_, fun _ _ _ => hnone, fun hready => by cases hready.1⟩
    rintro p hp
    rcases mem_append.mp hp with hp | hp
    · exact h.passed p hp
    · rw [mem_singleton.mp hp]
      exact hoff
  | @sent quota item hcontrol =>
    have hoff : w.draining = false := h.running (by simp [hcontrol])
    refine ⟨fun _ => hoff, h.passed, ?_, ?_⟩
    · intro _ _ hsend
      revert hsend
      show transmitted cfg quota item w = _ → _
      rw [transmitted]
      split
      · intro heq
        cases heq
      · split <;> intro heq <;> cases heq
    · rintro ⟨hidle, -, hopen⟩
      have hopen' : w.stopped cfg item.txQueueIndex = false := by
        rw [Fin.fin_one_eq_zero item.txQueueIndex]
        exact hopen
      refine ⟨?_, h.sending quota item hcontrol⟩
      change transmitted cfg quota item w = .idle at hidle
      rw [transmitted] at hidle
      split at hidle
      · next hend =>
        rcases hend with hzero | hstopped
        · exact hin.stored_eq_nil (by rw [hcontrol]; rfl) hfits.words hzero
        · exact absurd (hopen'.symm.trans hstopped) Bool.false_ne_true
      · split at hidle
        · next hquota =>
          rcases hfits.quota quota item rfl hcontrol hquota with hstopped | hempty
          · exact absurd (hopen.symm.trans hstopped) Bool.false_ne_true
          · exact hempty
        · cases hidle

theorem Fresh.stored {d : QueueDisc 0} (h : Fresh d) : d.stored = [] := by
  have hnil : ∀ classes : List (QueueDisc 0), (∀ c ∈ classes, c.stored = []) →
      storedIn classes = [] := by
    intro classes hall
    induction classes with
    | nil => rfl
    | cons c classes ih =>
      rw [storedIn, hall c mem_cons_self,
        ih fun c' hc => hall c' (mem_cons_of_mem c hc), append_nil]
  induction h with
  | @mk k classes _ ih =>
    rw [QueueDisc.stored, hnil classes ih, flatten_replicate_nil]
    rfl

theorem Fresh.requeued {d : QueueDisc 0} (h : Fresh d) : d.self.requeued = none := by
  cases h
  rfl

theorem Run.inTurn {ok : Root 0 → Event 0 → Root 0 → Prop} (h : Run cfg ok w) : InTurn w := by
  induction h with
  | init hfresh =>
    rw [InTurn, hfresh.requeued]
    rfl
  | step hrun hstep hdriven _ ih =>
    exact step_inTurn cfg hstep hdriven (reachable_inOrder cfg (hrun.reachable cfg)) ih

theorem Run.kept (h : Run cfg (Fits cfg) w) : Kept cfg w := by
  induction h with
  | init hfresh =>
    exact ⟨fun hbusy => absurd rfl hbusy, forall_mem_nil _, fun _ _ heq => (by cases heq),
      fun _ => ⟨hfresh.stored, hfresh.requeued⟩⟩
  | step hrun hstep hdriven hfits ih =>
    exact step_kept cfg hstep hdriven hfits (reachable_inOrder cfg (hrun.reachable cfg)) ih

/-- In every run whose steps do no harm, the packets that were obtained from `DoDequeue` have been
passed to the send callback in their order, up to one that is in hand or requeued, none while
draining, and none is left behind. -/
theorem nothing_stranded {w : Root 0} (h : Run cfg (Fits cfg) w) :
    w.passed.map Prod.fst <+: w.obtained ∧ (∀ p ∈ w.passed, p.2 = false) ∧
      (w.Ready cfg → w.Empty) := by
  refine ⟨?_, (h.kept cfg).passed, (h.kept cfg).ready⟩
  have hturn := h.inTurn cfg
  rw [InTurn, List.append_assoc] at hturn
  rw [hturn]
  exact List.prefix_append _ _

/-- A packet that arrives while draining is sent afterwards. -/
theorem nothing_stranded_one : ∃ w : Root 0, Run ⟨64, true⟩ (Fits ⟨64, true⟩) w ∧
    w.Ready ⟨64, true⟩ ∧ w.passed.length = 1 ∧ w.Empty := by
  have h0 : Run ⟨64, true⟩ (Fits ⟨64, true⟩) ({ disc := ⟨{ queues := [[]] }, []⟩ } : Root 0) :=
    .init (.mk (k := 1) (List.forall_mem_nil _))
  have h1 := h0.step (@Step.setDrain _ _ _ true trivial) trivial
    ⟨fun _ => rfl, nofun, by decide, nofun⟩
  have h2 := h1.step (.send trivial (@Enqueue.queue 0 ⟨7, 100, 0⟩ _ _ _ 0 [] [] _ rfl rfl)) trivial
    ⟨nofun, nofun, by decide, nofun⟩
  have h3 := h2.step (@Step.setDrain _ _ _ false trivial) trivial ⟨nofun, nofun, by decide, nofun⟩
  have h4 := h3.step (.nextPacket rfl rfl (fun _ => rfl) (.next rfl
    (@Take.queue _ _ _ _ _ 0 _ [] [] _ _ _ .start rfl rfl) (Nat.le_refl 1))) trivial
    ⟨nofun, nofun, by decide, nofun⟩
  have h5 := h4.step (.pass rfl rfl) trivial ⟨nofun, nofun, by decide, nofun⟩
  have h6 := h5.step (.sent rfl) trivial ⟨nofun, fun _ _ _ _ _ => .inr rfl, by decide, nofun⟩
  refine ⟨_, h6, ⟨?_, rfl, rfl⟩, rfl, (nothing_stranded ⟨64, true⟩ h6).2.2 ⟨?_, rfl, rfl⟩⟩ <;> rfl

/-- With a quota of one packet, the second of two that arrive while draining is left behind. -/
theorem stranded_quota : ∃ w : Root 0, Run ⟨1, true⟩ (fun _ _ _ => True) w ∧
    w.Ready ⟨1, true⟩ ∧ ¬ w.Empty := by
  have h0 : Run ⟨1, true⟩ (fun _ _ _ => True) ({ disc := ⟨{ queues := [[]] }, []⟩ } : Root 0) :=
    .init (.mk (k := 1) (List.forall_mem_nil _))
  have h1 := h0.step (@Step.setDrain _ _ _ true trivial) trivial trivial
  have h2 := h1.step (.send trivial (@Enqueue.queue 0 ⟨7, 100, 0⟩ _ _ _ 0 [] [] _ rfl rfl))
    trivial trivial
  have h3 := h2.step (.send trivial
    (@Enqueue.queue 0 ⟨8, 100, 0⟩ _ _ _ 0 [⟨7, 100, 0⟩] [] _ rfl rfl)) trivial trivial
  have h4 := h3.step (@Step.setDrain _ _ _ false trivial) trivial trivial
  change Run _ _ { disc := ⟨{ stats := { totalReceived := (2, 200), totalEnqueued := (2, 200) }
                              nPackets := 2, nBytes := 200
                              queues := [[⟨7, 100, 0⟩, ⟨8, 100, 0⟩]] }, []⟩
                   control := .restart 1 } at h4
  have h5 := h4.step (.nextPacket rfl rfl (fun _ => rfl) (.next rfl
    (@Take.queue _ _ _ _ _ 0 _ [] [⟨8, 100, 0⟩] _ _ _ .start rfl rfl) (Nat.le_refl 1)))
    trivial trivial
  have h6 := h5.step (.pass rfl rfl) trivial trivial
  have h7 := h6.step (.sent rfl) trivial trivial
  refine ⟨_, h7, ⟨?_, rfl, rfl⟩, fun hempty => ?_⟩
  · rfl
  · exact absurd (congrArg List.length hempty.1) (by decide)

end MoeJit.TrafficControl
