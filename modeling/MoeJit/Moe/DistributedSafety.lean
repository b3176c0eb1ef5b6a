import MoeJit.Moe.DistributedEvents

/-!
# Admission safety of the distributed scheduler

What a rank may rely on when `CheckAdmission` lets it start a task: its event is
committed to a window of slots, the window is charged at the source and in the
quota of every destination, and it has begun.

A predicted time before time 0 breaks this. The source converts its slot, a
negative number, to `uint64_t`, so that the search starts just below `2 ^ 64`,
and a window that wraps around has no slot to charge (`not_conserved_past`,
`not_safe_past`). From -10.01 ms on the search interval itself wraps and finds
nothing, and the event waits for ever. So in every run whose tasks start later
than that, as long as the clock stays within the range of `Time`, the capacity
is conserved (`quota_conservation`) and admission is safe
(`admission_safety_timely`).
-/

namespace MoeJit.DistributedAging

open Words StdSort AssocMap FirstFit

variable {cfg : Config} {sort : Sorter EventLess}

/-! ## 1. Safety -/

/-- Slot `u` is in the window of an event, which does not wrap around. -/
def LocalEvent.Covers (e : LocalEvent) (u : Slot) : Prop :=
  ∃ s ∈ e.start, s ≤ u ∧ u < s + e.span

instance (e : LocalEvent) (u : Slot) : Decidable (e.Covers u) := by
  unfold LocalEvent.Covers
  infer_instance

/-- What the committed events of a leaf have of its own slot `u`. -/
def committedSrc (lb : LeafBroker) (u : Slot) : Nat :=
  total (fun _ e => if e.committed = true ∧ e.Covers u then e.srcReq else 0) lb.localEvents

/-- What the committed events of a leaf have of slot `u` of destination `d`. -/
def committedFoot (lb : LeafBroker) (d : Leaf) (u : Slot) : Nat :=
  total (fun _ e => if e.committed = true ∧ e.Covers u then e.footAt d else 0) lb.localEvents

/-- The capacity of each slot is what is free and what has been given away: at a destination the
quota its sources still hold and the footprints of the events they have committed to windows with
that slot, at a source the bytes of its own. No subtraction on a dictionary wrapped. -/
structure Conserved (cfg : Config) {n : Nat} (brokers : Fin n → LeafBroker) : Prop where
  dst : ∀ d u, getFree (brokers d).dstFree u cfg.capacityPerSlot +
    ∑ s, (getFree ((brokers s).grantedQuota d) u 0 + committedFoot (brokers s) d u) =
      cfg.capacityPerSlot
  src : ∀ s u, getFree (brokers s).srcFree u cfg.capacityPerSlot + committedSrc (brokers s) u =
    cfg.capacityPerSlot
  exact : ∀ s, (brokers s).srcFree.wrapped = false ∧ (brokers s).dstFree.wrapped = false ∧
    ∀ d, ((brokers s).grantedQuota d).wrapped = false

/-- The requests at the source of the committed events but `id`, for slot `u`. -/
def otherSrc (lb : LeafBroker) (id : EventId) (u : Slot) : Nat :=
  total (fun id' e => if id' ≠ id ∧ e.committed = true ∧ e.Covers u then e.srcReq else 0)
    lb.localEvents

/-- The footprints at `d` of the committed events but `id`, for slot `u`. -/
def otherFoot (lb : LeafBroker) (id : EventId) (d : Leaf) (u : Slot) : Nat :=
  total (fun id' e => if id' ≠ id ∧ e.committed = true ∧ e.Covers u then e.footAt d else 0)
    lb.localEvents

/-- An event of leaf `i` is charged for every slot of the window at `s`. At the
source its request, those of the other committed events and what is free make up
the capacity. At a destination the capacity is made up of what it has not
granted and what each source leaf has got: the quota it still holds and the
footprints of its committed events, this one among them. -/
structure Charged (cfg : Config) {n : Nat} (brokers : Fin n → LeafBroker) (i : Fin n)
    (e : LocalEvent) (s : Slot) : Prop where
  src : ∀ u, s ≤ u → u < s + e.span → getFree (brokers i).srcFree u cfg.capacityPerSlot +
    (e.srcReq + otherSrc (brokers i) e.eventId u) = cfg.capacityPerSlot
  dst : ∀ (d : Fin n) u, s ≤ u → u < s + e.span →
    getFree (brokers d).dstFree u cfg.capacityPerSlot +
      (getFree ((brokers i).grantedQuota d) u 0 + (e.footAt d + otherFoot (brokers i) e.eventId d u) +
        ∑ j ∈ Finset.univ.erase i,
          (getFree ((brokers j).grantedQuota d) u 0 + committedFoot (brokers j) d u)) =
      cfg.capacityPerSlot
  outside : ∀ d : Leaf, n ≤ d → e.footAt d = 0

/-- A call that returns true in `w` finds its event committed to a window that
does not start before its ready slot, charged for it, and begun. -/
def AdmissionSafe (cfg : Config) (sort : Sorter EventLess) (w : World cfg) : Prop :=
  ∀ rank task now st, w.clock ≤ now → (∀ t ∈ w.state.timer, now ≤ t) →
    checkAdmission cfg sort rank task now w.state = some (st, true) →
    ∃ (i : Fin cfg.numLeafs) (e : LocalEvent) (s : Slot), i.val = u32 (rank / cfg.k) ∧
      (w.state.brokers i).localEvents.lookup (eventIdOf rank task) = some e ∧
      e.committed = true ∧ e.start = some s ∧ e.readySlot ≤ s ∧
      Charged cfg w.state.brokers i e s ∧ e.tPred ≤ now ∧ s * slotLength ≤ now

/-- What is committed in `w` is the same in `w'`. -/
def CommittedStays (w w' : World cfg) : Prop :=
  ∀ i id e, (w.state.brokers i).localEvents.lookup id = some e → e.committed = true →
    ∃ e', (w'.state.brokers i).localEvents.lookup id = some e' ∧ e'.committed = true ∧
      e'.start = e.start ∧ e'.span = e.span ∧ e'.releaseTime = e.releaseTime

/-- The last predicted time, in nanoseconds, whose slot finds no window: it is
negative, and the search interval wraps. -/
def firstTime : Time := -10010000

/-- How far the clock may go for the slots searched to be within `Time`. -/
def clockLimit : Time := 2 ^ 63 - 2 ^ 28

/-- The task of a call is predicted to start after `firstTime`, and the clock
stays below its limit. -/
def Input.Timely : Input → Prop
  | .call _ task now => firstTime < llround (task.startTime * 1000000000) ∧ now ≤ clockLimit
  | .epoch now => now ≤ clockLimit

/-! ## 2. Charges -/

variable {lb : LeafBroker} {id : EventId} {e : LocalEvent} {now : Time} {s : Slot}

section

variable {n : Nat}

theorem committedSrc_split {u : Slot} (he : lb.localEvents.lookup id = some e)
    (hcomm : e.committed = true) (hu : e.Covers u) :
    committedSrc lb u = e.srcReq + otherSrc lb id u := by
  have hsum := total_of_eq_of_ne he
    (f := fun _ e => if e.committed = true ∧ e.Covers u then e.srcReq else 0)
    (g := fun id' e => if id' ≠ id ∧ e.committed = true ∧ e.Covers u then e.srcReq else 0)
    fun id' e' hne _ => by simp [hne]
  simp only [hcomm, hu, and_self, if_true, ne_eq, not_true_eq_false, false_and, if_false,
    add_zero] at hsum
  rw [committedSrc, hsum, otherSrc, add_comm]

theorem committedFoot_split {d : Leaf} {u : Slot} (he : lb.localEvents.lookup id = some e)
    (hcomm : e.committed = true) (hu : e.Covers u) :
    committedFoot lb d u = e.footAt d + otherFoot lb id d u := by
  have hsum := total_of_eq_of_ne he
    (f := fun _ e => if e.committed = true ∧ e.Covers u then e.footAt d else 0)
    (g := fun id' e => if id' ≠ id ∧ e.committed = true ∧ e.Covers u then e.footAt d else 0)
    fun id' e' hne _ => by simp [hne]
  simp only [hcomm, hu, and_self, if_true, ne_eq, not_true_eq_false, false_and, if_false,
    add_zero] at hsum
  rw [committedFoot, hsum, otherFoot, add_comm]

/-- Nobody has quota of a leaf that does not exist. -/
def NoShareOutside (brokers : Fin n → LeafBroker) : Prop :=
  ∀ i (d : Leaf) u, n ≤ d → share (brokers i) d u = 0

theorem NoShareOutside.update {brokers : Fin n → LeafBroker} (h : NoShareOutside brokers)
    {i : Fin n} (hshare : ∀ d u, share lb d u = share (brokers i) d u) :
    NoShareOutside (Function.update brokers i lb) := by
  intro j d u hd
  rcases eq_or_ne j i with rfl | hne
  · rw [Function.update_self, hshare]
    exact h j d u hd
  · rw [Function.update_of_ne hne]
    exact h j d u hd

theorem onEpochTimer_noShare {st : State n} (hled : Ledger cfg st.brokers)
    (h : NoShareOutside st.brokers) : NoShareOutside (onEpochTimer cfg sort now st).brokers := by
  refine onEpochTimer_keeps hled (fun brokers queues i hled h => ?_)
    (fun brokers queues d hled h => ?_) (fun brokers i hled h => ?_) h
  · obtain ⟨events, heq, hevents⟩ := requestPhase_spec sort now queues (hled.balanced i)
    have hheld := accounts_of_changed (l := { brokers i with localEvents := events }) hevents
      fun _ _ _ ho => ho.1
    rw [heq]
    exact h.update fun d u =>
      congrArg (getFree ((brokers i).grantedQuota d) u 0 + ·) (hheld.2 d u)
  · intro i d' u hd'
    obtain ⟨_, _, _, heq, -, -⟩ := grantQuota_eq (grantsOf_spec queues (hled.dst_le d)) i
    have hne : d' ≠ d := (lt_of_lt_of_le d.isLt hd').ne'
    rw [heq, share, heldFoot, deliver]
    simp only [Function.update_of_ne hne]
    exact h i d' u hd'
  · obtain ⟨-, -, hshare, -, -⟩ := fastControlPath_spec sort now (hled.balanced i) (hled.settled i)
    exact h.update hshare

end

/-! ## 3. Windows -/

/-- The slot of `clockLimit + hElig`. -/
def lastSlot : Slot := 922337203668634

theorem slotOf_le {t : Time} (hpos : 0 ≤ t) (hle : t ≤ clockLimit + hElig) :
    slotOf t ≤ lastSlot := by
  have hdiv : t.tdiv slotLength = t / 10000 := Int.tdiv_eq_ediv_of_nonneg hpos
  rw [slotOf, hdiv]
  dsimp only [clockLimit, hElig, lastSlot, Slot, Time] at *
  omega

/-- A predicted time after `firstTime` that is near has a slot, or one at which
the search interval wraps. -/
theorem slotOf_tPred {t : Time} (hfirst : firstTime < t) (hle : t ≤ clockLimit + hElig) :
    slotOf t ≤ lastSlot ∨ 2 ^ 64 - 1000 ≤ slotOf t := by
  rcases le_or_gt 0 t with hpos | hneg
  · exact .inl (slotOf_le hpos hle)
  · have hdiv : t.tdiv slotLength = -(-t / 10000) := by
      have hneg' := Int.neg_tdiv (-t) slotLength
      rw [Int.neg_neg] at hneg'
      rw [hneg', Int.tdiv_eq_ediv_of_nonneg (Int.neg_nonneg.mpr (le_of_lt hneg))]
      rfl
    rw [slotOf, hdiv]
    dsimp only [firstTime, lastSlot, Slot, Time] at *
    omega

/-- What the events of a timely run have in common: predicted times and slots
within range, and of a window that it has not begun before the ready slot and
that the release time comes after its start and the predicted time. -/
structure EventOk (e : LocalEvent) : Prop where
  tPred : firstTime < e.tPred
  readySlot_ge : slotOf e.tPred ≤ e.readySlot
  readySlot_le : e.readySlot ≤ max lastSlot (slotOf e.tPred)
  span_pos : 0 < e.span
  span_lt : e.span < 2 ^ 32
  earliest : e.earliestSlot = noSlot ∨ e.earliestSlot ≤ lastSlot + wSearch
  window : ∀ s, e.start = some s → e.readySlot ≤ s ∧ s ≤ lastSlot + 2 * wSearch ∧
    s * slotLength ≤ e.releaseTime ∧ e.tPred ≤ e.releaseTime

theorem EventOk.fits (h : EventOk e) (hs : e.start = some s) : s + e.span < 2 ^ 64 := by
  have hle := (h.window s hs).2.1
  have hspan := h.span_lt
  dsimp only [lastSlot, wSearch, Slot] at *
  omega

/-- The loops come to every slot of its window. -/
theorem EventOk.covers_iff (h : EventOk e) (u : Slot) : e.Covers u ↔ e.Holds u := by
  constructor
  · rintro ⟨s, hs, hle, hlt⟩
    exact ⟨s, hs, mem_window.mpr ⟨hle, by rwa [u64_of_lt (h.fits hs)]⟩⟩
  · rintro ⟨s, hs, hmem⟩
    obtain ⟨hle, hlt⟩ := mem_window.mp hmem
    exact ⟨s, hs, hle, by rwa [u64_of_lt (h.fits hs)] at hlt⟩

theorem le_of_found {base : Slot} (hge : base ≤ s) (hlt : s < u64 (base + wSearch)) :
    base < 2 ^ 64 - 1000 ∧ s < base + wSearch := by
  dsimp only [u64, wSearch, Slot] at *
  omega

section

variable (h : EventOk e) (helig : eligible now e = true)
include h helig

theorem EventOk.readySlot_le_of_found (hnow : now ≤ clockLimit)
    (hready : e.readySlot < 2 ^ 64 - 1000) : e.readySlot ≤ lastSlot := by
  have hdue : e.tPred - now ≤ hElig := of_decide_eq_true (Bool.and_eq_true_iff.mp helig).2
  have hslot := slotOf_tPred h.tPred (by dsimp only [clockLimit, hElig, Time] at *; omega)
  have hge := h.readySlot_ge
  have hle := h.readySlot_le
  dsimp only [Slot] at *
  omega

theorem EventOk.found (hpos : 0 ≤ now) (hnow : now ≤ clockLimit)
    (hfound : findSlot cfg (slotOf now) lb e = some s) :
    e.readySlot ≤ s ∧ s ≤ lastSlot + 2 * wSearch := by
  have hslot : slotOf now ≤ lastSlot :=
    slotOf_le hpos (by dsimp only [clockLimit, hElig, Time] at *; omega)
  have hready := (findSlot_spec hfound).1
  refine ⟨hready, ?_⟩
  unfold findSlot at hfound
  simp only at hfound
  split at hfound
  · next hlater =>
    -- the base is the slot that the last epoch found
    obtain ⟨hge, hlt, -⟩ := search_spec hfound
    have hbound := (le_of_found hge hlt).2
    have hearliest := h.earliest.resolve_left hlater.1
    dsimp only [wSearch, Slot] at *
    omega
  · obtain ⟨hge, hlt, -⟩ := search_spec hfound
    obtain ⟨hbase, hbound⟩ := le_of_found hge hlt
    have hready' := h.readySlot_le_of_found helig hnow (lt_of_le_of_lt (Nat.le_max_left _ _) hbase)
    dsimp only [wSearch, Slot] at *
    omega

theorem EventOk.sought (hpos : 0 ≤ now) (hnow : now ≤ clockLimit) {x : Slot}
    (hx : Sought (slotOf now) e x) : x = noSlot ∨ x ≤ lastSlot + wSearch := by
  rcases hx with rfl | ⟨hge, hlt⟩
  · exact .inl rfl
  · have hslot : slotOf now ≤ lastSlot :=
      slotOf_le hpos (by dsimp only [clockLimit, hElig, Time] at *; omega)
    obtain ⟨hbase, hbound⟩ := le_of_found hge hlt
    have hready := h.readySlot_le_of_found helig hnow (lt_of_le_of_lt (Nat.le_max_left _ _) hbase)
    exact .inr (by dsimp only [Slot] at *; omega)

end

/-- A release time is not before the predicted time, nor before the start of the
window. -/
theorem le_releaseTimeOf (lb : LeafBroker) (k : Nat) (e : LocalEvent)
    (hs : s ≤ lastSlot + 2 * wSearch) :
    s * slotLength ≤ releaseTimeOf lb s k e ∧ e.tPred ≤ releaseTimeOf lb s k e := by
  have hstart : i64 (s * slotLength.toNat) = s * slotLength := by
    have hlen : slotLength.toNat = 10000 := rfl
    have hlen' : slotLength = 10000 := rfl
    rw [hlen, hlen', i64, u64]
    dsimp only [lastSlot, wSearch, Slot, Time] at *
    split <;> omega
  unfold releaseTimeOf
  simp only [hstart]
  generalize e.foot.entries.foldl _ (0 : Time) = phase
  have hgap : 0 ≤ (k : Time) * localGap := Int.mul_nonneg (Int.natCast_nonneg k) (by decide)
  generalize (k : Time) * localGap = gap at hgap
  generalize (s : Time) * slotLength = start
  dsimp only [Time] at *
  split <;> split <;> constructor <;> omega

theorem EventOk.passed {e' : LocalEvent} (h : EventOk e) (hpos : 0 ≤ now) (hnow : now ≤ clockLimit)
    (hpass : Passed cfg now id e e') : EventOk e' := by
  rcases hpass with rfl | ⟨helig, prio, rfl | ⟨lb, s, lb', k, hfound, rfl⟩⟩
  · exact h
  · exact ⟨h.tPred, h.readySlot_ge, h.readySlot_le, h.span_pos, h.span_lt, h.earliest, h.window⟩
  · obtain ⟨hready, hle⟩ := h.found helig hpos hnow hfound
    refine ⟨h.tPred, h.readySlot_ge, h.readySlot_le, h.span_pos, h.span_lt, h.earliest,
      fun s' hs' => ?_⟩
    obtain rfl : s = s' := Option.some.inj hs'
    exact ⟨hready, hle, le_releaseTimeOf lb' k e hle⟩

theorem EventOk.requested {e' : LocalEvent} (h : EventOk e) (hpos : 0 ≤ now)
    (hnow : now ≤ clockLimit) (hreq : Requested now id e e') : EventOk e' := by
  rcases hreq with rfl | ⟨helig, age, was, requests, prio, x, hx, rfl⟩
  · exact h
  · refine ⟨h.tPred, h.readySlot_ge, h.readySlot_le, h.span_pos, h.span_lt, ?_, h.window⟩
    cases hx with
    | inl hx => exact h.sought helig hpos hnow hx
    | inr hx => exact hx ▸ h.earliest

theorem eventOk_newEvent {eId : EventId} {rank : Rank} {task : MoeTask} (hpos : 0 ≤ now)
    (htimely : (Input.call rank task now).Timely) : EventOk (newEvent cfg eId rank task now) := by
  obtain ⟨hfirst, hnow⟩ := htimely
  have hslot : slotOf now ≤ lastSlot :=
    slotOf_le hpos (by dsimp only [clockLimit, hElig, Time] at *; omega)
  refine ⟨hfirst, Nat.le_max_right _ _, max_le_max_right _ hslot, ?_, ?_, .inl rfl,
    fun s hs => nomatch hs⟩
  · simp only [newEvent]
    split
    · exact one_pos
    · exact pos_of_ne_zero ‹_›
  · simp only [newEvent]
    split
    · decide
    · exact (Nat.div_le_self _ _).trans_lt (u32_lt _)

section

variable {n : Nat} {brokers : Fin n → LeafBroker} (hled : Ledger cfg brokers)
  (hok : EventsOk EventOk brokers)
include hled hok

theorem committed_iff {i : Fin n} (he : (brokers i).localEvents.lookup id = some e) (u : Slot) :
    e.committed = true ∧ e.Covers u ↔ e.Holds u := by
  rw [(hok i id e he).covers_iff]
  refine and_iff_right_of_imp fun ⟨s, hs, _⟩ => ?_
  exact (hled.settled i id e he).mp (Option.isSome_of_mem hs)

theorem committedSrc_eq (i : Fin n) (u : Slot) :
    committedSrc (brokers i) u = heldSrc (brokers i) u :=
  total_congr fun id e he => by simp only [committed_iff hled hok he u]

theorem committedFoot_eq (i : Fin n) (d : Leaf) (u : Slot) :
    committedFoot (brokers i) d u = heldFoot (brokers i) d u :=
  total_congr fun id e he => by simp only [committed_iff hled hok he u]

/-- A committed event is charged for its window. -/
theorem charged (hout : NoShareOutside brokers) {i : Fin n}
    (he : (brokers i).localEvents.lookup id = some e) (hcomm : e.committed = true)
    (hs : e.start = some s) : Charged cfg brokers i e s := by
  have hid := (hled.balanced i).keyed id e he
  have hcovers : ∀ u, s ≤ u → u < s + e.span → e.Covers u := fun u hu hu' => ⟨s, hs, hu, hu'⟩
  refine ⟨fun u hu hu' => ?_, fun d u hu hu' => ?_, fun d hd => ?_⟩
  · rw [hid, ← committedSrc_split he hcomm (hcovers u hu hu'), committedSrc_eq hled hok]
    exact (hled.balanced i).src u
  · rw [hid, ← committedFoot_split he hcomm (hcovers u hu hu'), Finset.add_sum_erase _ (fun j =>
      getFree ((brokers j).grantedQuota d) u 0 + committedFoot (brokers j) d u) (Finset.mem_univ i)]
    simp only [committedFoot_eq hled hok]
    exact hled.dst d u
  · have hzero := hout i d s hd
    rw [share, Nat.add_eq_zero_iff] at hzero
    have hsplit := committedFoot_split (d := d) he hcomm
      (hcovers s (le_refl s) (Nat.lt_add_of_pos_right (hok i id e he).span_pos))
    rw [committedFoot_eq hled hok, hzero.2] at hsplit
    exact (Nat.add_eq_zero_iff.mp hsplit.symm).1

end

/-! ## 4. Every timely run -/

theorem eventsOk_timely {w : World cfg} (hrun : Run cfg sort Input.Timely {} w) :
    EventsOk EventOk w.state.brokers := by
  have hnow : ∀ input : Input, input.Timely → input.now ≤ clockLimit := fun input h => by
    cases input with
    | call rank task now => exact h.2
    | epoch now => exact h
  exact run_events (P := fun _ e => EventOk e) (fun _ _ _ _ _ hok => hok)
    (fun id rank task now htimely hpos => eventOk_newEvent hpos htimely)
    (fun input id e e' htimely hpos hpass hok => hok.passed hpos (hnow input htimely) hpass)
    (fun input id e e' htimely hpos hreq hok => hok.requested hpos (hnow input htimely) hreq) hrun

theorem step_noShare {w w' : World cfg} {input : Input} (hreach : Reachable cfg sort w)
    (h : NoShareOutside w.state.brokers) (hstep : Step cfg sort w input w') :
    NoShareOutside w'.state.brokers := by
  have hled := reachable_ledger hreach
  cases hstep with
  | call _ _ hcall =>
    intro i d u hd
    rw [checkAdmission_share hled hcall]
    exact h i d u hd
  | epoch _ => exact onEpochTimer_noShare hled h

theorem run_noShare {P : Input → Prop} {w : World cfg} (hrun : Run cfg sort P {} w) :
    NoShareOutside w.state.brokers := by
  induction hrun with
  | refl => exact fun _ _ _ _ => rfl
  | tail hrun hstep ih =>
    obtain ⟨input, -, hstep⟩ := hstep
    exact step_noShare (Run.reachable hrun .init) ih hstep

/-- A call that returns true finds its event committed and released. -/
theorem committed_of_admitted {rank : Rank} {task : MoeTask} {st st' : State cfg.numLeafs}
    (h : checkAdmission cfg sort rank task now st = some (st', true)) :
    ∃ (i : Fin cfg.numLeafs) (e : LocalEvent), i.val = u32 (rank / cfg.k) ∧
      (st.brokers i).localEvents.lookup (eventIdOf rank task) = some e ∧
      e.committed = true ∧ e.releaseTime ≤ now := by
  unfold checkAdmission at h
  simp only at h
  split at h
  · next hleaf =>
    split at h
    · cases h
    · next e he =>
      obtain ⟨-, hret⟩ := Prod.mk.inj (Option.some.inj h)
      obtain ⟨hcomm, hrelease⟩ := Bool.and_eq_true_iff.mp hret
      exact ⟨⟨_, hleaf⟩, e, rfl, he, hcomm, of_decide_eq_true hrelease⟩
  · cases h

theorem step_committed {w w' : World cfg} {input : Input} (hreach : Reachable cfg sort w)
    (hstep : Step cfg sort w input w') {i : Fin cfg.numLeafs}
    (he : (w.state.brokers i).localEvents.lookup id = some e) (hcomm : e.committed = true) :
    (w'.state.brokers i).localEvents.lookup id = some e := by
  have hled := reachable_ledger hreach
  have hno : ∀ now, eligible now e = false := fun now => by simp [eligible, hcomm]
  cases hstep with
  | @call rank task now _ _ _ _ hcall =>
    rcases checkAdmission_cases hcall with heq | ⟨j, eId, hnew, heq⟩
    · rw [heq, he]
    · rw [heq]
      rcases eq_or_ne i j with rfl | hne
      · obtain ⟨hbal, hs, -⟩ := register_spec (e := newEvent cfg eId rank task now)
          (hled.balanced i) (hled.settled i) hnew rfl rfl
        have hid : id ≠ eId := fun heq =>
          hnew (AList.lookup_isSome.mp (by rw [← heq, he]; rfl))
        obtain ⟨e', he', hpass⟩ := (fastControlPath_events hbal hs).lookup_of
          ((AList.lookup_insert_ne hid).trans he)
        rw [Function.update_self, he', hpass.of_not_eligible (hno _)]
      · rw [Function.update_of_ne hne, he]
  | epoch _ => exact onEpochTimer_committed hled he hcomm

theorem run_lookup {P : Input → Prop} {w w' : World cfg} (hreach : Reachable cfg sort w)
    (hrun : Run cfg sort P w w') {i : Fin cfg.numLeafs}
    (he : (w.state.brokers i).localEvents.lookup id = some e) (hcomm : e.committed = true) :
    (w'.state.brokers i).localEvents.lookup id = some e := by
  induction hrun with
  | refl => exact he
  | tail hrun hstep ih =>
    obtain ⟨input, -, hstep⟩ := hstep
    exact step_committed (Run.reachable hrun hreach) hstep ih hcomm

theorem run_committed {P : Input → Prop} {w w' : World cfg} (hreach : Reachable cfg sort w)
    (hrun : Run cfg sort P w w') : CommittedStays w w' :=
  fun _ _ e he hcomm => ⟨e, run_lookup hreach hrun he hcomm, hcomm, rfl, rfl, rfl⟩

/-- In every run whose tasks are predicted to start after -10.01 ms and whose
clock stays below its limit, the capacity of every slot is accounted for. -/
theorem quota_conservation {w : World cfg} (hrun : Run cfg sort Input.Timely {} w) :
    Conserved cfg w.state.brokers := by
  have hled := reachable_ledger (Run.reachable hrun .init)
  have hok := eventsOk_timely hrun
  refine ⟨fun d u => ?_, fun s u => ?_, fun s => ⟨(hled.balanced s).src_wrapped,
    hled.dst_wrapped s, (hled.balanced s).quota_wrapped⟩⟩
  · simp only [committedFoot_eq hled hok]
    exact hled.dst d u
  · rw [committedSrc_eq hled hok]
    exact (hled.balanced s).src u

theorem timely_afterEpochs : Run rivalsCfg rivalsSort Input.Timely {} ⟨afterEpochs, 2000000⟩ :=
  run_afterEpochs (fun rank task hstart => ⟨by rw [hstart]; decide +kernel, by decide⟩)
    fun now hnow => hnow.trans (by decide)

/-- After two epochs both rivals are committed, and every slot balances. -/
theorem quota_conservation_rivals :
    ((afterEpochs.brokers ⟨0, by decide⟩).events.map fun e => (e.committed, e.start)) =
      [(true, some 200)] ∧
    ((afterEpochs.brokers ⟨2, by decide⟩).events.map fun e => (e.committed, e.start)) =
      [(true, some 100)] ∧ Conserved rivalsCfg afterEpochs.brokers :=
  ⟨by decide +kernel, by decide +kernel, quota_conservation timely_afterEpochs⟩

/-- In every run whose tasks are predicted to start after -10.01 ms and whose
clock stays below its limit, admission is safe in every state, and what is
committed stays as it is however the run goes on. -/
theorem admission_safety_timely {w : World cfg} (hrun : Run cfg sort Input.Timely {} w) :
    AdmissionSafe cfg sort w ∧
    ∀ w', Run cfg sort (fun _ => True) w w' → CommittedStays w w' := by
  have hreach := Run.reachable hrun .init
  have hled := reachable_ledger hreach
  refine ⟨fun rank task now st _ _ hcall => ?_, fun w' hrun' => run_committed hreach hrun'⟩
  obtain ⟨i, e, hi, he, hcomm, hrelease⟩ := committed_of_admitted hcall
  have hok := eventsOk_timely hrun i _ e he
  obtain ⟨s, hs⟩ := Option.isSome_iff_exists.mp ((hled.settled i _ e he).mpr hcomm)
  obtain ⟨hready, -, hbegun, hpred⟩ := hok.window s hs
  exact ⟨i, e, s, hi, he, hcomm, hs, hready,
    charged hled (eventsOk_timely hrun) (run_noShare hrun) he hcomm hs, hpred.trans hrelease,
    hbegun.trans hrelease⟩

/-- The run of the two rivals is timely. -/
theorem admission_safety_timely_rivals :
    AdmissionSafe rivalsCfg rivalsSort ⟨afterEpochs, 2000000⟩ ∧
    ∀ w', Run rivalsCfg rivalsSort (fun _ => True) ⟨afterEpochs, 2000000⟩ w' →
      CommittedStays ⟨afterEpochs, 2000000⟩ w' :=
  admission_safety_timely timely_afterEpochs

/-- A task predicted for 20 ms before time 0 that sends 20010 bytes, 2001 slots
of ten bytes. -/
def past : MoeTask :=
  { taskTo 3 ((∅ : FlowMap).insert 1 20010) with startTime := -2 / 100 }

theorem run_past : Run rivalsCfg rivalsSort (fun _ => True) {} ⟨reported 0 past {}, 0⟩ := by
  obtain ⟨hrun, -⟩ : Run rivalsCfg rivalsSort (fun _ => True) {} ⟨reported 0 past {}, 0⟩ ∧ _ :=
    run_reported .refl (le_refl _) (by decide) trivial
  exact hrun

theorem free_past : getFree ((reported 0 past {}).brokers ⟨0, by decide⟩).srcFree (2 ^ 64 - 2000)
    rivalsCfg.capacityPerSlot = rivalsCfg.capacityPerSlot := by
  decide +kernel

/-- The call commits the task to a window that starts at slot `2 ^ 64 - 2000` and wraps, and charges
nothing. -/
theorem not_conserved_past : ∃ w : World rivalsCfg,
    Run rivalsCfg rivalsSort (fun _ => True) {} w ∧ ¬ Conserved rivalsCfg w.state.brokers := by
  refine ⟨_, run_past, fun hconserved => ?_⟩
  have hsrc := hconserved.src ⟨0, by decide⟩ (2 ^ 64 - 2000)
  have hheld : committedSrc ((reported 0 past {}).brokers ⟨0, by decide⟩) (2 ^ 64 - 2000) = 10 := by
    decide +kernel
  rw [free_past, hheld] at hsrc
  exact absurd (Nat.add_eq_left.mp hsrc) (by decide)

/-- A second call admits it. -/
theorem not_safe_past : ∃ w : World rivalsCfg,
    Run rivalsCfg rivalsSort (fun _ => True) {} w ∧ ¬ AdmissionSafe rivalsCfg rivalsSort w := by
  refine ⟨_, run_past, fun hsafe => ?_⟩
  have hcall : (checkAdmission rivalsCfg rivalsSort 0 past 0 (reported 0 past {})).map (·.2) =
      some true := by decide +kernel
  obtain ⟨⟨st, ret⟩, hcall, rfl⟩ := Option.map_eq_some_iff.mp hcall
  obtain ⟨i, e, s, hi, he, -, hs, -, hcharged, -⟩ := hsafe 0 past 0 st (le_refl _)
    (by decide +kernel) hcall
  obtain rfl : i = ⟨0, by decide⟩ := Fin.ext hi
  have hevent : (((reported 0 past {}).brokers ⟨0, by decide⟩).localEvents.lookup
      (eventIdOf 0 past)).map (fun e => (e.start, e.srcReq, e.span)) =
      some (some (2 ^ 64 - 2000), 10, 2001) := by decide +kernel
  rw [he, Option.map_some, Option.some.injEq, Prod.mk.injEq, Prod.mk.injEq, hs,
    Option.some.injEq] at hevent
  obtain ⟨rfl, hreq, hspan⟩ := hevent
  have hsrc := hcharged.src (2 ^ 64 - 2000) (Nat.le_refl _)
    (Nat.lt_add_of_pos_right (by rw [hspan]; decide))
  rw [free_past, hreq] at hsrc
  have hzero := Nat.add_eq_left.mp hsrc
  exact absurd (Nat.add_eq_zero_iff.mp hzero).1 (by decide)

/-- A call that returned true is the last word: from any later state of any run every call of the
rank for the task returns true, and leaves the brokers as they are. -/
theorem admission_stands {w w' : World cfg} (hreach : Reachable cfg sort w) {rank : Rank}
    {task task' : MoeTask} {now' : Time} {st : State cfg.numLeafs}
    (hcall : checkAdmission cfg sort rank task now w.state = some (st, true))
    (hrun : Run cfg sort (fun _ => True) w w') (htask : task'.taskId = task.taskId)
    (hnow : now ≤ now') : ∃ st', checkAdmission cfg sort rank task' now' w'.state = some (st', true) ∧
      st'.brokers = w'.state.brokers := by
  obtain ⟨i, e, hi, he, hcomm, hrelease⟩ := committed_of_admitted hcall
  have hleaf : u32 (rank / cfg.k) < cfg.numLeafs := hi ▸ i.isLt
  obtain rfl : i = ⟨u32 (rank / cfg.k), hleaf⟩ := Fin.ext hi
  have hid : eventIdOf rank task' = eventIdOf rank task := by rw [eventIdOf, htask, ← eventIdOf]
  have hlater := run_lookup hreach hrun he hcomm
  refine ⟨{ w'.state with timer := some (w'.state.timer.getD (now' + epochLength)) }, ?_, rfl⟩
  unfold checkAdmission
  dsimp only
  rw [dif_pos hleaf, hid, hlater]
  dsimp only
  rw [hcomm, decide_eq_true (hrelease.trans hnow)]
  rfl

/-- The wide rival is admitted at 3 ms, and once more. -/
theorem admission_stands_wide :
    ∃ st, checkAdmission rivalsCfg rivalsSort 0 wide 3000001 afterEpochs = some (st, true) := by
  have hret : (checkAdmission rivalsCfg rivalsSort 0 wide 3000000 afterEpochs).map (·.2) =
      some true := by
    unfold afterEpochs
    decide +kernel
  obtain ⟨⟨st, ret⟩, hcall, rfl⟩ := Option.map_eq_some_iff.mp hret
  obtain ⟨st', hcall', -⟩ := admission_stands reachable_afterEpochs hcall .refl rfl
    (by decide : (3000000 : Time) ≤ 3000001)
  exact ⟨st', hcall'⟩

end MoeJit.DistributedAging
