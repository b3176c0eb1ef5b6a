import MoeJit.Moe.DistributedQuota

/-!
# What a destination grants

A destination never takes quota back. An event that stays uncommitted asks for
quota again in every epoch, so that it can be charged to a destination several
times (`quota_leak_rivals`). It is charged at most once for each epoch timer in
which it was eligible: all that a destination has granted is covered by the
requests that its events have made (`granted_le_requested`).
-/

namespace MoeJit.DistributedAging

open Words StdSort AssocMap FirstFit Function List

variable {n : Nat}

/-! ## 1. Measures -/

/-- What a leaf has granted of the slots in `U`. -/
def granted (cfg : Config) (lb : LeafBroker) (U : Finset Slot) : Nat :=
  ∑ u ∈ U, (cfg.capacityPerSlot - getFree lb.dstFree u cfg.capacityPerSlot)

/-- What an event asks of destination `d` for its window. -/
def LocalEvent.demand (e : LocalEvent) (d : Leaf) : Nat := e.span * e.footAt d

/-- What the events of a leaf ask of destination `d`, all of them once. -/
def registered (lb : LeafBroker) (d : Leaf) : Nat :=
  total (fun _ e => e.demand d) lb.localEvents

/-- What the events of a leaf ask of destination `d`, once for each epoch timer
in which they were eligible. -/
def requested (lb : LeafBroker) (d : Leaf) : Nat :=
  total (fun _ e => e.requests * e.demand d) lb.localEvents

/-- What the requests in a queue ask for. -/
def queueDemand (queue : List (Request n)) : Nat := (queue.map fun r => r.span * r.foot).sum

variable {cfg : Config} {lb : LeafBroker} {sort : Sorter EventLess} {now : Time}

theorem granted_congr {lb' : LeafBroker} (h : lb'.dstFree.val = lb.dstFree.val) (U : Finset Slot) :
    granted cfg lb' U = granted cfg lb U := by
  simp only [granted, getFree, h]

/-! ## 2. Grants -/

theorem granted_serve_le (src : Fin n) (req : Request n) {g : Grants n} (h : Granting cfg lb g)
    (hle : ∀ u, getFree lb.dstFree u cfg.capacityPerSlot ≤ cfg.capacityPerSlot) (U : Finset Slot) :
    granted cfg (serve cfg src req g).lb U ≤ granted cfg g.lb U + req.span * req.foot := by
  obtain ⟨-, l, hnodup, hlen, hdst⟩ := serve_spec src req h hle
  have hslot : ∀ u, cfg.capacityPerSlot -
      getFree (serve cfg src req g).lb.dstFree u cfg.capacityPerSlot =
      cfg.capacityPerSlot - getFree g.lb.dstFree u cfg.capacityPerSlot +
        if u ∈ l then req.foot else 0 := fun u => by
    have := hdst u
    have := (Nat.le.intro (h.balance u)).trans (hle u)
    omega
  have hwindow : ∑ u ∈ U, (if u ∈ l then req.foot else 0) ≤ req.span * req.foot :=
    calc ∑ u ∈ U, (if u ∈ l then req.foot else 0)
        = (U.filter (· ∈ l)).card * req.foot := by
          rw [← Finset.sum_filter, Finset.sum_const, smul_eq_mul]
      _ ≤ l.length * req.foot := by
          refine Nat.mul_le_mul_right _ ?_
          rw [← toFinset_card_of_nodup hnodup]
          exact Finset.card_le_card fun u hu =>
            mem_toFinset.mpr (Finset.mem_filter.mp hu).2
      _ ≤ req.span * req.foot := Nat.mul_le_mul_right _ hlen
  simp only [granted, hslot, Finset.sum_add_distrib]
  exact Nat.add_le_add_left hwindow _

/-- The best head is the head of its queue. -/
theorem bestHead_spec {queues : Fin n → List (Request n)} {src : Fin n} {req : Request n}
    (h : bestHead queues = some (src, req)) : ∃ tail, queues src = req :: tail := by
  refine foldl_keeps (P := fun best => ∀ src req, best = some (src, req) →
    ∃ tail, queues src = req :: tail) (fun best src₀ hbest src req heq => ?_) _
    (fun _ _ h => by cases h) src req h
  unfold betterHead at heq
  split at heq
  · exact hbest src req heq
  · next head tail hqueue =>
    cases heq
    exact ⟨tail, hqueue⟩
  · next head tail best hqueue =>
    split at heq
    · cases heq
      exact ⟨tail, hqueue⟩
    · exact hbest src req heq

theorem granted_arbitrate_le
    (hle : ∀ u, getFree lb.dstFree u cfg.capacityPerSlot ≤ cfg.capacityPerSlot) (U : Finset Slot)
    (fuel : Nat) (queues : Fin n → List (Request n)) {g : Grants n} (h : Granting cfg lb g) :
    granted cfg (arbitrate cfg fuel queues g).lb U ≤
      granted cfg g.lb U + ∑ s, queueDemand (queues s) := by
  induction fuel generalizing queues g with
  | zero => exact Nat.le_add_right _ _
  | succ fuel ih =>
    rw [arbitrate]
    split
    · exact Nat.le_add_right _ _
    · next src req hbest =>
      obtain ⟨tail, hqueue⟩ := bestHead_spec hbest
      have hhead : queueDemand (queues src) = req.span * req.foot + queueDemand tail := by
        rw [hqueue, queueDemand, map_cons, sum_cons]
        rfl
      have hsum := sum_of_eq_of_ne (g := fun s => queueDemand (queues s)) src
        (f := fun s => queueDemand (Function.update queues src tail s))
        fun s hs => by rw [update_of_ne hs]
      rw [update_self, hhead] at hsum
      have hrest := ih (Function.update queues src tail) (serve_spec src req h hle).1
      have hone := granted_serve_le src req h hle U
      rw [hqueue, tail_cons]
      omega

theorem sum_queueDemand (queue : List (Request n)) :
    ∑ s, queueDemand (queue.filter (·.srcLeaf = s)) = queueDemand queue := by
  induction queue with
  | nil => simp [queueDemand]
  | cons req queue ih =>
    have hcons : ∀ s, queueDemand ((req :: queue).filter (·.srcLeaf = s)) =
        (if req.srcLeaf = s then req.span * req.foot else 0) +
          queueDemand (queue.filter (·.srcLeaf = s)) := fun s => by
      rw [filter_cons]
      by_cases hs : req.srcLeaf = s
      · simp [hs, queueDemand]
      · simp [hs]
    simp only [hcons, Finset.sum_add_distrib, ih, Finset.sum_ite_eq, Finset.mem_univ, if_true]
    rw [queueDemand, queueDemand, map_cons, sum_cons]

variable {brokers : Fin n → LeafBroker}

/-- The grants of leaf `d` raise what it has granted, by no more than the
requests to it, and nothing else. -/
theorem granted_grantQuota_le (queues : DestQueues n) (h : Ledger cfg brokers) (d d' : Fin n)
    (U : Finset Slot) :
    granted cfg (grantQuota cfg queues brokers d d') U ≤
      granted cfg (brokers d') U + if d' = d then queueDemand (queues d) else 0 := by
  obtain ⟨dstFree, grantedPhase, nextPhase, heq, hval, -⟩ :=
    grantQuota_eq (grantsOf_spec queues (h.dst_le d)) d'
  have hgranted : granted cfg (grantQuota cfg queues brokers d d') U =
      granted cfg (if d' = d then (grantsOf cfg queues brokers d).lb else brokers d') U :=
    granted_congr (by rw [heq]; exact hval) U
  rw [hgranted]
  split
  · next hd =>
    subst hd
    have hle := granted_arbitrate_le (h.dst_le d') U (queues d').length
      (fun s => (queues d').filter (·.srcLeaf = s)) (granting_start cfg (brokers d'))
    rw [sum_queueDemand] at hle
    exact hle
  · exact Nat.le_add_right _ _

/-- After all destinations have granted, each has granted at most what was
asked of it. -/
theorem granted_foldl_grantQuota_le (queues : DestQueues n) (l : List (Fin n))
    (h : Ledger cfg brokers) (hl : l.Nodup) (d : Fin n) (U : Finset Slot) :
    granted cfg (l.foldl (grantQuota cfg queues) brokers d) U ≤
      granted cfg (brokers d) U + (if d ∈ l then queueDemand (queues d) else 0) ∧
    ∀ s, (l.foldl (grantQuota cfg queues) brokers s).localEvents = (brokers s).localEvents := by
  induction l generalizing brokers with
  | nil => exact ⟨Nat.le_add_right _ _, fun _ => rfl⟩
  | cons d₀ l ih =>
    obtain ⟨hnot, hl⟩ := nodup_cons.mp hl
    obtain ⟨hle, hevents⟩ := ih (grantQuota_ledger h d₀) hl
    refine ⟨hle.trans ?_, fun s => (hevents s).trans (localEvents_grantQuota h d₀ s)⟩
    have hone := granted_grantQuota_le queues h d₀ d U
    by_cases hd : d = d₀
    · subst hd
      rw [if_pos rfl] at hone
      rw [if_neg hnot, if_pos mem_cons_self]
      exact hone
    · rw [if_neg hd] at hone
      simp only [mem_cons, hd, false_or]
      exact Nat.add_le_add_right hone _

/-! ## 3. Requests -/

/-- The loop over the eligible events asks each destination for no more than
they need. -/
theorem queueDemand_foldl_requestEvent {slot : Slot} {i : Fin n} {order : List LocalEvent}
    {prov : Dict} {queues : DestQueues n} (d : Leaf) :
    queueDemand ((order.foldl (requestEvent cfg slot i) (lb, prov, queues)).2.2 d) ≤
      queueDemand (queues d) + (order.map (·.demand d)).sum := by
  induction order generalizing lb prov queues with
  | nil => exact Nat.le_refl _
  | cons e order ih =>
    rw [foldl_cons, map_cons, sum_cons, ← Nat.add_assoc, requestEvent]
    split
    · exact ih.trans (Nat.add_le_add_right (Nat.le_add_right _ _) _)
    · next s _ =>
      refine ih.trans (Nat.add_le_add_right (Nat.le_of_eq ?_) _)
      rw [foldl_update e.foot (fun amount queue => queue ++
        [(⟨e.eventId, i, s, e.span, amount, e.b, e.prio, e.tPred⟩ : Request n)]) queues d,
        LocalEvent.demand, LocalEvent.footAt]
      cases e.foot.lookup d with
      | none => rw [Option.elim_none, Option.getD_none, Nat.mul_zero, Nat.add_zero]
      | some amount =>
        rw [Option.elim_some, Option.getD_some, queueDemand, map_append, sum_append, queueDemand]
        simp

theorem demand_observe (cfg : Config) (now : Time) (e : LocalEvent) (d : Leaf) :
    (observe cfg now e).demand d = e.demand d := by
  unfold observe
  split <;> rfl

/-- The eligible events of a leaf, in whatever order they are sorted. -/
theorem sum_demand_sort (sort : Sorter EventLess) (lb : LeafBroker) (now : Time) (d : Leaf) :
    ((sort.run (lb.events.filter (eligible now))).map (·.demand d)).sum =
      total (fun _ e => if eligible now e then e.demand d else 0) lb.localEvents := by
  rw [((sort.isSortOf _).1.map _).sum_eq, LeafBroker.events, total]
  induction lb.localEvents.entries with
  | nil => rfl
  | cons kv l ih =>
    rw [map_cons, filter_cons, map_cons, sum_cons, ← ih]
    split
    · rw [map_cons, sum_cons]
    · rw [zero_add]

theorem SameLoad.demand {e e' : LocalEvent} (h : SameLoad e e') (d : Leaf) :
    e'.demand d = e.demand d := by
  rw [LocalEvent.demand, LocalEvent.demand, h.span, h.footAt]

/-- What the request phase of leaf `i` asks of `d` is counted at its events. -/
theorem requested_requestPhase (sort : Sorter EventLess) (now : Time) (queues : DestQueues n)
    (h : Ledger cfg brokers) (i : Fin n) (d : Leaf) :
    requested ((requestPhase cfg sort now (brokers, queues) i).1 i) d = requested (brokers i) d +
      total (fun _ e => if eligible now e then e.demand d else 0) (brokers i).localEvents := by
  obtain ⟨events, heq, hevents⟩ := requestPhase_spec sort now queues (h.balanced i)
  rw [heq, update_self, requested, requested, ← total_add]
  refine hevents.total_eq fun _ e e' ho => ?_
  rw [ho.2.2, ho.1.demand, Nat.add_mul]
  split
  · rw [one_mul]
  · rw [Nat.zero_mul]

theorem queueDemand_requestPhase_le (cfg : Config) (sort : Sorter EventLess) (now : Time)
    (brokers : Fin n → LeafBroker) (queues : DestQueues n) (i : Fin n) (d : Leaf) :
    queueDemand ((requestPhase cfg sort now (brokers, queues) i).2 d) ≤ queueDemand (queues d) +
      total (fun _ e => if eligible now e then e.demand d else 0) (brokers i).localEvents := by
  have hcount : total (fun _ e => if eligible now e then e.demand d else 0)
      ((brokers i).modifyAll (observe cfg now)).localEvents =
      total (fun _ e => if eligible now e then e.demand d else 0) (brokers i).localEvents := by
    rw [LeafBroker.modifyAll, total_mapVal]
    simp only [eligible_observe, demand_observe]
  rw [← hcount, ← sum_demand_sort sort]
  exact queueDemand_foldl_requestEvent d

/-- After the request phases of some leaves, what has been asked of each
destination is counted at their events; the grants are as before. -/
theorem foldl_requestPhase (sort : Sorter EventLess) (now : Time) (l : List (Fin n))
    (queues : DestQueues n) (h : Ledger cfg brokers) :
    (∀ d : Leaf, queueDemand ((l.foldl (requestPhase cfg sort now) (brokers, queues)).2 d) +
        ∑ s, requested (brokers s) d ≤ queueDemand (queues d) +
          ∑ s, requested ((l.foldl (requestPhase cfg sort now) (brokers, queues)).1 s) d) ∧
    Ledger cfg (l.foldl (requestPhase cfg sort now) (brokers, queues)).1 ∧
    ∀ s, ((l.foldl (requestPhase cfg sort now) (brokers, queues)).1 s).dstFree =
      (brokers s).dstFree := by
  induction l generalizing brokers queues with
  | nil => exact ⟨fun _ => le_refl _, h, fun _ => rfl⟩
  | cons i l ih =>
    obtain ⟨events, heq, -⟩ := requestPhase_spec sort now queues (h.balanced i)
    obtain ⟨hle, hled, hdst⟩ :=
      ih (requestPhase cfg sort now (brokers, queues) i).2 (requestPhase_ledger h i)
    refine ⟨fun d => ?_, hled, fun s => (hdst s).trans ?_⟩
    · have hone := queueDemand_requestPhase_le cfg sort now brokers queues i d
      have hcount := requested_requestPhase sort now queues h i d
      have hsum := sum_of_eq_of_ne (g := fun s => requested (brokers s) d) i
        (f := fun s => requested ((requestPhase cfg sort now (brokers, queues) i).1 s) d)
        fun s hs => by rw [heq, update_of_ne hs]
      have hrest : queueDemand ((l.foldl (requestPhase cfg sort now)
            (requestPhase cfg sort now (brokers, queues) i)).2 d) +
          ∑ s, requested ((requestPhase cfg sort now (brokers, queues) i).1 s) d ≤
          queueDemand ((requestPhase cfg sort now (brokers, queues) i).2 d) +
          ∑ s, requested ((l.foldl (requestPhase cfg sort now)
            (requestPhase cfg sort now (brokers, queues) i)).1 s) d := hle d
      rw [foldl_cons]
      omega
    · rw [heq, update_apply]
      split
      · next hs => rw [hs]
      · rfl

/-! ## 4. Every run -/

/-- What has been granted of any slots is covered by the requests. -/
def Covered (cfg : Config) (brokers : Fin n → LeafBroker) : Prop :=
  ∀ (d : Fin n) (U : Finset Slot), granted cfg (brokers d) U ≤ ∑ s, requested (brokers s) d

theorem requested_of_sameDemand {lb' : LeafBroker}
    (h : Changed SameDemand lb.localEvents lb'.localEvents) (d : Leaf) :
    requested lb' d = requested lb d :=
  h.total_eq fun _ e e' hs => by
    rw [hs.2.2, LocalEvent.demand, LocalEvent.demand, LocalEvent.footAt, LocalEvent.footAt, hs.1,
      hs.2.1]

theorem requested_register {e : LocalEvent} (hnew : e.eventId ∉ lb.localEvents)
    (hzero : e.requests = 0) (d : Leaf) : requested (register lb e) d = requested lb d := by
  rw [requested, register, total_insert hnew, hzero, Nat.zero_mul, zero_add]
  rfl

/-- One leaf changes, and keeps what it has granted and requested. -/
theorem Covered.update (h : Covered cfg brokers) {i : Fin n}
    (hdst : lb.dstFree = (brokers i).dstFree) (hreq : ∀ d, requested lb d = requested (brokers i) d)
    : Covered cfg (Function.update brokers i lb) := fun d U => by
  have hsame : ∀ s, requested (Function.update brokers i lb s) d = requested (brokers s) d :=
    fun s => by
      rw [update_apply]
      split
      · next hs => rw [hreq, hs]
      · rfl
  have hgranted : granted cfg (Function.update brokers i lb d) U = granted cfg (brokers d) U := by
    refine granted_congr ?_ U
    rw [update_apply]
    split
    · next hd => rw [hdst, hd]
    · rfl
  simp only [hsame, hgranted]
  exact h d U

theorem fastControlPath_covered (hled : Ledger cfg brokers) (h : Covered cfg brokers) (i : Fin n) :
    Ledger cfg (Function.update brokers i (fastControlPath cfg sort now (brokers i))) ∧
    Covered cfg (Function.update brokers i (fastControlPath cfg sort now (brokers i))) := by
  obtain ⟨hbal, hs, hshare, hdst, hevents⟩ :=
    fastControlPath_spec sort now (hled.balanced i) (hled.settled i)
  exact ⟨hled.update hbal hs hshare hdst, h.update hdst (requested_of_sameDemand hevents)⟩

theorem onEpochTimer_covered {st : State n} (hled : Ledger cfg st.brokers)
    (h : Covered cfg st.brokers) : Covered cfg (onEpochTimer cfg sort now st).brokers := by
  obtain ⟨hle, hled₁, hdst⟩ := foldl_requestPhase sort now (List.finRange n) (fun _ => []) hled
  generalize hst : (List.finRange n).foldl (requestPhase cfg sort now)
    (st.brokers, fun _ => []) = st₁ at hle hled₁ hdst
  obtain ⟨brokers, queues⟩ := st₁
  have hled₂ : Ledger cfg brokers := hled₁
  have hgrants : Covered cfg ((List.finRange n).foldl (grantQuota cfg queues) brokers) :=
    fun d U => by
      obtain ⟨hgranted, hevents⟩ := granted_foldl_grantQuota_le queues (List.finRange n)
        hled₂ (nodup_finRange n) d U
      have hbefore := h d U
      have hasked : queueDemand (queues d) + ∑ s, requested (st.brokers s) d ≤
          0 + ∑ s, requested (brokers s) d := hle d
      have hsame : ∀ s, requested ((List.finRange n).foldl (grantQuota cfg queues) brokers s) d =
          requested (brokers s) d := fun s => congrArg (total _) (hevents s)
      rw [if_pos (mem_finRange d), granted_congr (congrArg Dict.val (hdst d))] at hgranted
      simp only [hsame]
      omega
  have hepoch : (onEpochTimer cfg sort now st).brokers = (List.finRange n).foldl
      (fun brokers i => Function.update brokers i (fastControlPath cfg sort now (brokers i)))
      ((List.finRange n).foldl (grantQuota cfg queues) brokers) := by
    simp only [onEpochTimer, hst]
  rw [hepoch]
  refine (foldl_keeps (P := fun brokers => Ledger cfg brokers ∧ Covered cfg brokers)
    (fun brokers i hkeep => fastControlPath_covered hkeep.1 hkeep.2 i) _ ⟨?_, hgrants⟩).2
  exact foldl_keeps (P := Ledger cfg) (fun brokers d hled => grantQuota_ledger hled d) _ hled₁

theorem checkAdmission_covered {rank : Rank} {task : MoeTask} {st st' : State cfg.numLeafs}
    {ret : Bool} (hled : Ledger cfg st.brokers) (h : Covered cfg st.brokers)
    (hcall : checkAdmission cfg sort rank task now st = some (st', ret)) :
    Covered cfg st'.brokers := by
  rcases checkAdmission_cases hcall with heq | ⟨i, eId, hnew, heq⟩
  · rw [heq]
    exact h
  · obtain ⟨hbal, hs, -⟩ := register_spec (e := newEvent cfg eId rank task now)
      (hled.balanced i) (hled.settled i) hnew rfl rfl
    obtain ⟨-, -, -, hdst, hevents⟩ := fastControlPath_spec sort now hbal hs
    rw [heq]
    exact h.update hdst fun d =>
      (requested_of_sameDemand hevents d).trans (requested_register hnew rfl d)

/-- In every reachable state, what a destination has granted of any slots is at
most what the events registered so far need of it, each as often as an epoch
timer went off while it was eligible: registered, not committed and due within
`hElig`. -/
theorem granted_le_requested {cfg : Config} {sort : Sorter EventLess} {w : World cfg}
    (h : Reachable cfg sort w) (d : Fin cfg.numLeafs) (U : Finset Slot) :
    granted cfg (w.state.brokers d) U ≤ ∑ s, requested (w.state.brokers s) d := by
  have hcovered : Covered cfg w.state.brokers := by
    induction h with
    | init =>
      intro d U
      have hzero : granted cfg {} U = 0 := by simp [granted, getFree]
      exact hzero.trans_le (Nat.zero_le _)
    | call hw _ _ hcall ih => exact checkAdmission_covered (reachable_ledger hw) ih hcall
    | epoch hw _ ih => exact onEpochTimer_covered (reachable_ledger hw) ih
  exact hcovered d U

theorem granted_le_requested_rivals :
    ∑ s, requested (afterEpochs.brokers s) 1 = 19 ∧
    ∀ U, granted rivalsCfg (afterEpochs.brokers ⟨1, by decide⟩) U ≤
      ∑ s, requested (afterEpochs.brokers s) 1 :=
  ⟨by decide +kernel, granted_le_requested reachable_afterEpochs ⟨1, by decide⟩⟩

/-- Leaf 1 grants the narrow event slot 100 and the wide one slot 101, where leaf
2 grants the wide one slot 100. The wide event stays uncommitted, and the next
epoch charges leaf 1 for it once more. -/
theorem quota_leak_rivals : ∃ w : World rivalsCfg, Reachable rivalsCfg rivalsSort w ∧
    ∃ (d : Fin rivalsCfg.numLeafs) (U : Finset Slot),
      ∑ s, registered (w.state.brokers s) d < granted rivalsCfg (w.state.brokers d) U :=
  ⟨_, reachable_afterEpochs, ⟨1, by decide⟩, {100, 101, 200}, by decide +kernel⟩

end MoeJit.DistributedAging
