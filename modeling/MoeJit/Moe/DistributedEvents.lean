import MoeJit.Moe.DistributedQuota

/-!
# What happens to an event

The passes of `DistributedAgingScheduler`, seen by one event: what
`FastControlPath` (`Passed`) and the request phase of an epoch (`Requested`) may
do to it. Both leave an event alone that is not eligible, so a committed event
stays as it is (`onEpochTimer_committed`), and a property of events that both
keep is kept by an epoch (`onEpochTimer_events`).
-/

namespace MoeJit.DistributedAging

open Words StdSort AssocMap FirstFit Function
open Function (update)

variable {n : Nat} {cfg : Config} {sort : Sorter EventLess} {now : Time}

/-! ## 1. FastControlPath -/

/-- What `FastControlPath` does to an event: nothing if it is not eligible; to an
eligible one it gives its priority, and if it found a slot for it that slot and
a release time. -/
def Passed (cfg : Config) (now : Time) (_ : EventId) (e e' : LocalEvent) : Prop :=
  e' = e ∨ eligible now e = true ∧ ∃ prio, e' = { e with prio := prio } ∨
    ∃ lb s lb' k, findSlot cfg (slotOf now) lb e = some s ∧
      e' = { e with
        prio := prio
        start := some s
        releaseTime := releaseTimeOf lb' s k e
        committed := true }

/-- The new priorities of a pass. -/
def Prioritized (now : Time) (_ : EventId) (e e' : LocalEvent) : Prop :=
  ∃ prio, e' = { e with prio := prio } ∧ (eligible now e = false → e' = e)

variable {id : EventId} {e e' : LocalEvent} {lb : LeafBroker}

theorem Prioritized.eligible (h : Prioritized now id e e') : eligible now e' = eligible now e := by
  obtain ⟨prio, rfl, -⟩ := h
  rfl

/-- The priorities of a pass leave the accounts alone. -/
theorem prioritize_spec (h : Balanced cfg lb) (hs : Settled lb) {lb₁ : LeafBroker}
    (hlb₁ : lb.modifyAll (fun e =>
      if eligible now e then { e with prio := priority cfg alphaAge e } else e) = lb₁) :
    Balanced cfg lb₁ ∧ Settled lb₁ ∧ Changed (Prioritized now) lb.localEvents lb₁.localEvents := by
  subst hlb₁
  have hprio : Changed (Prioritized now) lb.localEvents (lb.modifyAll fun e =>
      if eligible now e then { e with prio := priority cfg alphaAge e } else e).localEvents := by
    refine changed_modifyAll fun id e => ?_
    split
    · next helig => exact ⟨_, rfl, fun hno => absurd helig (by simp [hno])⟩
    · exact ⟨e.prio, rfl, fun _ => rfl⟩
  have hload : ∀ id e e', Prioritized now id e e' → SameLoad e e' := by
    rintro id e - ⟨prio, rfl, -⟩
    exact ⟨rfl, rfl, rfl, rfl, rfl⟩
  refine ⟨h.changed hprio hload, hs.changed hprio fun id e e' hp => ⟨(hload id e e' hp).start, ?_⟩,
    hprio⟩
  obtain ⟨prio, rfl, -⟩ := hp
  rfl

theorem fastControlPath_events (h : Balanced cfg lb) (hs : Settled lb) :
    Changed (Passed cfg now) lb.localEvents (fastControlPath cfg sort now lb).localEvents := by
  generalize hlb₁ : lb.modifyAll (fun e =>
    if eligible now e then { e with prio := priority cfg alphaAge e } else e) = lb₁
  obtain ⟨hbal₁, hsettled₁, hprio⟩ := prioritize_spec h hs hlb₁
  obtain ⟨hnodup, horder⟩ := eligible_order sort now hbal₁ hsettled₁
  generalize hrun : (sort.run (lb₁.events.filter (eligible now))).foldl
    (placeEvent cfg (slotOf now)) (lb₁, []) = st
  obtain ⟨lb₂, buckets⟩ := st
  obtain ⟨new, hnew, hin, hplaced⟩ :=
    foldl_placeEvent_events hnodup (fun e he => (horder e he).1) hrun
  obtain rfl : buckets = new := hnew
  obtain ⟨events, heq, hcommits⟩ := foldl_commitEvent_times (commits sort lb₂ buckets) lb₂
  have hpath : fastControlPath cfg sort now lb = { lb₂ with localEvents := events } := by
    rw [← heq, fastControlPath]
    simp only [hlb₁, hrun]
  rw [hpath]
  refine (hprio.trans hplaced (T := fun id e e₂ => ∃ e₁, Prioritized now id e e₁ ∧
    PlacedAt buckets id e₁ e₂) fun id e e₁ e₂ h₁ h₂ => ⟨e₁, h₁, h₂⟩).trans hcommits
      fun id e e₂ e₃ h₂ h₃ => ?_
  obtain ⟨e₁, hp, hplace⟩ := h₂
  have helig := hp.eligible
  obtain ⟨prio, rfl, hsame⟩ := hp
  rcases hplace with ⟨rfl, hno⟩ | ⟨s, rfl, hmem, hid⟩
  · -- not in a bucket, so not committed either
    rcases h₃ with ⟨rfl, -⟩ | ⟨t, ht, rfl⟩
    · cases hcase : eligible now e with
      | false => exact .inl (hsame hcase)
      | true => exact .inr ⟨hcase, prio, .inl rfl⟩
    · exact absurd (mem_commits.mp (List.mem_map_of_mem ht)) hno
  · rw [(horder _ (hin.mem _ hmem)).2.1] at helig
    obtain ⟨lb₀, hfound⟩ := hin.found _ hmem
    have hcommitted : id ∈ (commits sort lb₂ buckets).map (·.1) :=
      mem_commits.mpr (List.mem_map.mpr ⟨_, hmem, hid⟩)
    rcases h₃ with ⟨rfl, hno⟩ | ⟨t, ht, rfl⟩
    · exact absurd hcommitted hno
    · obtain ⟨s', k, e', hmem', hid', rfl⟩ := commits_time ht
      -- the bucket that gave the release time is the one of the event
      have hsame : (s', e') = (s, { e with prio := prio }) :=
        List.inj_on_of_nodup_map hin.nodup hmem' hmem (hid'.trans hid.symm)
      obtain ⟨rfl, rfl⟩ := Prod.mk.inj hsame
      exact .inr ⟨helig.symm, prio, .inr ⟨lb₀, s', lb₂, k, hfound, rfl⟩⟩

theorem Passed.of_not_eligible (h : Passed cfg now id e e') (hno : eligible now e = false) :
    e' = e := by
  rcases h with rfl | ⟨helig, -⟩
  · rfl
  · rw [hno] at helig
    cases helig

/-! ## 2. Requests -/

/-- What the search of a request gives: a slot from `base` on, or none. -/
def Sought (slot : Slot) (e : LocalEvent) (x : Slot) : Prop :=
  x = noSlot ∨ max e.readySlot slot ≤ x ∧ x < u64 (max e.readySlot slot + wSearch)

/-- What the request phase of an epoch does to an event. -/
def Requested (now : Time) (_ : EventId) (e e' : LocalEvent) : Prop :=
  e' = e ∨ eligible now e = true ∧ ∃ age was requests prio x, (Sought (slotOf now) e x ∨
    x = e.earliestSlot) ∧ e' = { e with
      age := age, wasEligible := was, requests := requests, prio := prio, earliestSlot := x }

theorem Requested.of_not_eligible (h : Requested now id e e') (hno : eligible now e = false) :
    e' = e := by
  rcases h with rfl | ⟨helig, -⟩
  · rfl
  · rw [hno] at helig
    cases helig

/-- What the loop over the eligible events of a leaf does to an event. -/
def SoughtIn (slot : Slot) (order : List LocalEvent) (id : EventId) (e e' : LocalEvent) : Prop :=
  e' = e ∨ ∃ x e₀, e₀ ∈ order ∧ e₀.eventId = id ∧ Sought slot e₀ x ∧
    e' = { e with earliestSlot := x }

variable {i : Fin n} {brokers : Fin n → LeafBroker} {st : State n}

theorem foldl_requestEvent_events {slot : Slot} {order : List LocalEvent} {lb' : LeafBroker}
    {prov prov' : Dict} {queues queues' : DestQueues n}
    (hrun : order.foldl (requestEvent cfg slot i) (lb, prov, queues) = (lb', prov', queues')) :
    Changed (SoughtIn slot order) lb.localEvents lb'.localEvents := by
  induction order generalizing lb prov queues with
  | nil =>
    cases hrun
    exact .refl fun id e _ => .inl rfl
  | cons e order ih =>
    have hone : ∀ x, Sought slot e x → Changed (SoughtIn slot [e]) lb.localEvents
        (lb.modify e.eventId fun e' => { e' with earliestSlot := x }).localEvents := fun x hx =>
      changed_modify (fun e' => .inr ⟨x, e, List.mem_singleton_self e, rfl, hx, rfl⟩)
        fun id e' => .inl rfl
    have hcompose : ∀ id e₁ e₂ e₃, SoughtIn slot [e] id e₁ e₂ → SoughtIn slot order id e₂ e₃ →
        SoughtIn slot (e :: order) id e₁ e₃ := by
      rintro id e₁ e₂ e₃ (rfl | ⟨x, e₀, hmem, hid, hx, rfl⟩) (rfl | ⟨x', e₀', hmem', hid', hx', rfl⟩)
      · exact .inl rfl
      · exact .inr ⟨x', e₀', List.mem_cons_of_mem e hmem', hid', hx', rfl⟩
      · exact .inr ⟨x, e₀, List.mem_singleton.mp hmem ▸ List.mem_cons_self, hid, hx, rfl⟩
      · exact .inr ⟨x', e₀', List.mem_cons_of_mem e hmem', hid', hx', rfl⟩
    rw [List.foldl_cons, requestEvent] at hrun
    split at hrun
    · exact (hone noSlot (.inl rfl)).trans (ih hrun) hcompose
    · next s hfound =>
      obtain ⟨hge, hlt, -⟩ := search_spec hfound
      exact (hone s (.inr ⟨hge, hlt⟩)).trans (ih hrun) hcompose

theorem requestPhase_events (sort : Sorter EventLess) (now : Time) (queues : DestQueues n)
    (hled : Ledger cfg brokers) (i : Fin n) :
    Changed (Requested now) (brokers i).localEvents
      ((requestPhase cfg sort now (brokers, queues) i).1 i).localEvents := by
  generalize hlb : (brokers i).modifyAll (observe cfg now) = lb
  generalize hrun : (sort.run (lb.events.filter (eligible now))).foldl
    (requestEvent cfg (slotOf now) i) (lb, lb.srcFree, queues) = st
  obtain ⟨lb', prov, queues'⟩ := st
  have hphase : ((requestPhase cfg sort now (brokers, queues) i).1 i).localEvents =
      lb'.localEvents := by
    rw [requestPhase]
    simp only [hlb, hrun, update_self]
  rw [hphase]
  have hobserved : Changed (fun _ e e' => e' = observe cfg now e) (brokers i).localEvents
      lb.localEvents := by
    rw [← hlb]
    exact changed_modifyAll fun id e => rfl
  have hkept := hobserved.mono fun id e e' (he : e' = observe cfg now e) =>
    he ▸ observed_observe cfg now id e
  have hbal : Balanced cfg lb := by
    rw [← hlb] at hkept ⊢
    exact (hled.balanced i).changed hkept fun _ _ _ ho => ho.1
  have hsettled : Settled lb := (hled.settled i).changed hkept fun _ _ _ ho => ⟨ho.1.start, ho.2.1⟩
  obtain ⟨-, horder⟩ := eligible_order sort now hbal hsettled
  -- the event of the loop with this identifier is the event itself
  have hsought : Changed (fun _ e e' => e' = e ∨ eligible now e = true ∧ ∃ x,
      Sought (slotOf now) e x ∧ e' = { e with earliestSlot := x }) lb.localEvents
        lb'.localEvents := by
    refine (foldl_requestEvent_events hrun).mono_of_lookup fun id e e' hlook hs => ?_
    rcases hs with rfl | ⟨x, e₀, hmem, rfl, hx, rfl⟩
    · exact .inl rfl
    · obtain ⟨hlook₀, helig, -⟩ := horder e₀ hmem
      obtain rfl : e = e₀ := Option.some.inj (hlook.symm.trans hlook₀)
      exact .inr ⟨helig, x, hx, rfl⟩
  refine hobserved.trans hsought fun id e e₁ e₂ h₁ h₂ => ?_
  subst h₁
  unfold observe at h₂
  cases helig : eligible now e with
  | false =>
    rw [helig] at h₂
    rcases h₂ with rfl | ⟨hyes, -⟩
    · exact .inl rfl
    · rw [if_neg Bool.false_ne_true, helig] at hyes
      cases hyes
  | true =>
    rw [helig, if_pos rfl] at h₂
    rcases h₂ with rfl | ⟨-, x, hx, rfl⟩
    · exact .inr ⟨helig, _, _, _, _, _, .inr rfl, rfl⟩
    · exact .inr ⟨helig, _, _, _, _, x, .inl hx, rfl⟩

/-! ## 3. Epochs -/

/-- All events of all leaves satisfy `P`. -/
def EventsOk (P : LocalEvent → Prop) (brokers : Fin n → LeafBroker) : Prop :=
  ∀ i id e, (brokers i).localEvents.lookup id = some e → P e

theorem EventsOk.update {P : LocalEvent → Prop} (h : EventsOk P brokers)
    {R : EventId → LocalEvent → LocalEvent → Prop}
    (hchanged : Changed R (brokers i).localEvents lb.localEvents)
    (hR : ∀ id e e', R id e e' → P e → P e') : EventsOk P (update brokers i lb) := by
  intro j id e' he'
  rcases eq_or_ne j i with rfl | hne
  · rw [update_self] at he'
    obtain ⟨e, he, hr⟩ := hchanged.lookup he'
    exact hR id e e' hr (h j id e he)
  · rw [update_of_ne hne] at he'
    exact h j id e' he'

/-- The three loops of an epoch keep what each of their iterations keeps. -/
theorem onEpochTimer_keeps {P : (Fin n → LeafBroker) → Prop} (hled : Ledger cfg st.brokers)
    (hrequest : ∀ brokers queues i, Ledger cfg brokers → P brokers →
      P (requestPhase cfg sort now (brokers, queues) i).1)
    (hgrant : ∀ brokers queues d, Ledger cfg brokers → P brokers →
      P (grantQuota cfg queues brokers d)) (hpass : ∀ brokers i, Ledger cfg brokers → P brokers →
      P (update brokers i (fastControlPath cfg sort now (brokers i)))) (h : P st.brokers) :
    P (onEpochTimer cfg sort now st).brokers := by
  have hrequests : Ledger cfg ((List.finRange n).foldl (requestPhase cfg sort now)
      (st.brokers, fun _ => [])).1 ∧ P ((List.finRange n).foldl (requestPhase cfg sort now)
      (st.brokers, fun _ => [])).1 :=
    foldl_keeps (P := fun p : (Fin n → LeafBroker) × DestQueues n => Ledger cfg p.1 ∧ P p.1)
      (fun p i hp => ⟨requestPhase_ledger hp.1 i, hrequest p.1 p.2 i hp.1 hp.2⟩) _ ⟨hled, h⟩
  generalize hst : (List.finRange n).foldl (requestPhase cfg sort now)
    (st.brokers, fun _ => []) = st₁ at hrequests
  obtain ⟨brokers, queues⟩ := st₁
  have hgrants := foldl_keeps (P := fun b : Fin n → LeafBroker => Ledger cfg b ∧ P b)
    (fun b d hb => ⟨grantQuota_ledger hb.1 d, hgrant b queues d hb.1 hb.2⟩) (List.finRange n)
    hrequests
  have hpasses := foldl_keeps (P := fun b : Fin n → LeafBroker => Ledger cfg b ∧ P b)
    (f := fun b i => update b i (fastControlPath cfg sort now (b i)))
    (fun b i hb => by
      obtain ⟨hbal, hs, hshare, hdst, -⟩ :=
        fastControlPath_spec sort now (hb.1.balanced i) (hb.1.settled i)
      exact ⟨hb.1.update hbal hs hshare hdst, hpass b i hb.1 hb.2⟩) (List.finRange n) hgrants
  have hepoch : (onEpochTimer cfg sort now st).brokers = (List.finRange n).foldl
      (fun b i => update b i (fastControlPath cfg sort now (b i)))
      ((List.finRange n).foldl (grantQuota cfg queues) brokers) := by
    simp only [onEpochTimer, hst]
  rw [hepoch]
  exact hpasses.2

theorem requestPhase_update (sort : Sorter EventLess) (now : Time) (queues : DestQueues n)
    (hled : Ledger cfg brokers) (i : Fin n) :
    ∃ lb, (requestPhase cfg sort now (brokers, queues) i).1 = update brokers i lb ∧
      Changed (Requested now) (brokers i).localEvents lb.localEvents := by
  obtain ⟨events, heq, -⟩ := requestPhase_spec sort now queues (hled.balanced i)
  have hevents := requestPhase_events sort now queues hled i
  rw [heq, update_self] at hevents
  exact ⟨_, heq, hevents⟩

/-- A property of events that both passes keep is kept by an epoch. -/
theorem onEpochTimer_events {P : LocalEvent → Prop} (hled : Ledger cfg st.brokers)
    (hreq : ∀ id e e', Requested now id e e' → P e → P e')
    (hpass : ∀ id e e', Passed cfg now id e e' → P e → P e') (h : EventsOk P st.brokers) :
    EventsOk P (onEpochTimer cfg sort now st).brokers := by
  refine onEpochTimer_keeps hled (fun brokers queues i hled h => ?_)
    (fun brokers queues d hled h => ?_) (fun brokers i hled h => ?_) h
  · obtain ⟨lb, heq, hchanged⟩ := requestPhase_update sort now queues hled i
    rw [heq]
    exact h.update hchanged hreq
  · intro i id e he
    rw [localEvents_grantQuota hled d i] at he
    exact h i id e he
  · exact h.update (fastControlPath_events (hled.balanced i) (hled.settled i)) hpass

theorem onEpochTimer_committed (hled : Ledger cfg st.brokers)
    (he : (st.brokers i).localEvents.lookup id = some e) (hcomm : e.committed = true) :
    ((onEpochTimer cfg sort now st).brokers i).localEvents.lookup id = some e := by
  have hno : eligible now e = false := by simp [eligible, hcomm]
  have hupdate : ∀ {brokers : Fin n → LeafBroker} {j : Fin n} {lb : LeafBroker}
      {R : EventId → LocalEvent → LocalEvent → Prop},
      Changed R (brokers j).localEvents lb.localEvents → (∀ e', R id e e' → e' = e) →
      (brokers i).localEvents.lookup id = some e →
      (update brokers j lb i).localEvents.lookup id = some e := by
    intro brokers j lb R hchanged hR he
    rcases eq_or_ne i j with rfl | hne
    · obtain ⟨e', he', hr⟩ := hchanged.lookup_of he
      rw [update_self, he', hR e' hr]
    · rw [update_of_ne hne, he]
  refine onEpochTimer_keeps (P := fun brokers => (brokers i).localEvents.lookup id = some e) hled
    (fun brokers queues j hled h => ?_) (fun brokers queues d hled h => ?_)
    (fun brokers j hled h => ?_) he
  · obtain ⟨lb, heq, hchanged⟩ := requestPhase_update sort now queues hled j
    rw [heq]
    exact hupdate hchanged (fun e' hr => hr.of_not_eligible hno) h
  · rw [localEvents_grantQuota hled d i, h]
  · exact hupdate (fastControlPath_events (hled.balanced j) (hled.settled j))
      (fun e' hr => hr.of_not_eligible hno) h

/-! ## 4. Runs -/

theorem checkAdmission_timer {rank : Rank} {task : MoeTask} {st st' : State cfg.numLeafs}
    {ret : Bool} (h : checkAdmission cfg sort rank task now st = some (st', ret)) :
    st'.timer = some (st.timer.getD (now + epochLength)) := by
  unfold checkAdmission at h
  simp only at h
  split at h
  · split at h <;> cases h <;> rfl
  · cases h

/-- The clock of a run starts at 0, and the timer is not behind it. -/
theorem reachable_clock {w : World cfg} (h : Reachable cfg sort w) :
    0 ≤ w.clock ∧ ∀ t ∈ w.state.timer, w.clock ≤ t := by
  induction h with
  | init => exact ⟨le_refl 0, fun t ht => nomatch ht⟩
  | @call w _ _ now _ _ _ hclock htimer hcall ih =>
    refine ⟨ih.1.trans hclock, fun t ht => ?_⟩
    rw [checkAdmission_timer hcall] at ht
    obtain rfl := Option.some.inj ht
    cases hold : w.state.timer with
    | none => exact Int.le_add_of_nonneg_right (by decide)
    | some t₀ => exact htimer t₀ hold
  | epoch _ htimer ih =>
    refine ⟨ih.1.trans (ih.2 _ htimer), fun t ht => ?_⟩
    rw [timer_onEpochTimer] at ht
    obtain rfl := Option.some.inj ht
    exact Int.le_add_of_nonneg_right (by decide)

theorem Step.clock {w w' : World cfg} {input : Input} (hreach : Reachable cfg sort w)
    (hstep : Step cfg sort w input w') : w'.clock = input.now ∧ w.clock ≤ input.now := by
  cases hstep with
  | call hclock _ _ => exact ⟨rfl, hclock⟩
  | epoch htimer => exact ⟨rfl, (reachable_clock hreach).2 _ htimer⟩

/-- A property of events at a time that new events have and both passes keep
holds of all events of a run. -/
theorem run_events {In : Input → Prop} {P : Time → LocalEvent → Prop}
    (hmono : ∀ t t' e, 0 ≤ t → t ≤ t' → P t e → P t' e)
    (hnew : ∀ id rank task now, In (.call rank task now) → 0 ≤ now →
      P now (newEvent cfg id rank task now))
    (hpass : ∀ input id e e', In input → 0 ≤ input.now → Passed cfg input.now id e e' →
      P input.now e → P input.now e')
    (hreq : ∀ input id e e', In input → 0 ≤ input.now → Requested input.now id e e' →
      P input.now e → P input.now e') {w : World cfg} (hrun : Run cfg sort In {} w) :
    EventsOk (P w.clock) w.state.brokers := by
  induction hrun with
  | refl => exact fun i id e he => nomatch he
  | tail hrun hstep ih =>
    obtain ⟨input, hin, hstep⟩ := hstep
    have hreach : Reachable cfg sort _ := Run.reachable hrun .init
    have hled := reachable_ledger hreach
    obtain ⟨hclock, hle⟩ := hstep.clock hreach
    have hpos := (reachable_clock hreach).1
    have hnow := hpos.trans hle
    have hlater : EventsOk (P input.now) _ := fun i id e he => hmono _ _ e hpos hle (ih i id e he)
    rw [hclock]
    cases hstep with
    | @call rank task now _ _ _ _ hcall =>
      rcases checkAdmission_cases hcall with heq | ⟨i, eId, hnew', heq⟩
      · rw [heq]
        exact hlater
      · obtain ⟨hbal, hs, -⟩ := register_spec (e := newEvent cfg eId rank task now)
          (hled.balanced i) (hled.settled i) hnew' rfl rfl
        rw [heq]
        intro j id e he
        rcases eq_or_ne j i with rfl | hne
        · rw [update_self] at he
          obtain ⟨e₀, he₀, hpassed⟩ := (fastControlPath_events hbal hs).lookup he
          refine hpass (.call rank task now) id e₀ e hin hnow hpassed ?_
          rcases eq_or_ne id eId with rfl | hid
          · have hself : e₀ = newEvent cfg id rank task now :=
              (Option.some.inj ((AList.lookup_insert _).symm.trans he₀)).symm
            rw [hself]
            exact hnew id rank task now hin hnow
          · exact hlater j id e₀ ((AList.lookup_insert_ne hid).symm.trans he₀)
        · rw [update_of_ne hne] at he
          exact hlater j id e he
    | @epoch now _ =>
      exact onEpochTimer_events hled (fun id e e' => hreq (.epoch now) id e e' hin hnow)
        (fun id e e' => hpass (.epoch now) id e e' hin hnow) hlater

end MoeJit.DistributedAging
