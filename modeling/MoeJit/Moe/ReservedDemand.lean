import MoeJit.Moe.CentralizedSafety
import MoeJit.Moe.DistributedUnloaded

/-!
# Reservations and demand

Both schedulers divide what a task sends by the number of slots of its window and reserve the
truncated quotient in each slot. What they reserve covers the demand only if the number of slots
divides it. The distributed scheduler adds up the bytes in 32 bits, so there a demand that wraps
is not covered either.
-/

namespace MoeJit

open Words Function

/-- Truncated quotients cover what was divided only if nothing was cut off. -/
theorem floor_covers_iff {span x : Nat} : x ≤ span * (x / span) ↔ span ∣ x :=
  ⟨fun h => ⟨x / span, le_antisymm h (Nat.mul_div_le x span)⟩, fun h => (Nat.mul_div_cancel' h).ge⟩

theorem u32_covers_iff {span x : Nat} : x ≤ span * (u32 x / span) ↔ x < 2 ^ 32 ∧ span ∣ x := by
  constructor
  · intro h
    have hlt : x < 2 ^ 32 := (h.trans (Nat.mul_div_le _ span)).trans_lt (u32_lt x)
    rw [u32_of_lt hlt] at h
    exact ⟨hlt, floor_covers_iff.mp h⟩
  · rintro ⟨hlt, hdvd⟩
    rw [u32_of_lt hlt]
    exact floor_covers_iff.mpr hdvd

/-! ## 1. CentralizedAdmissionScheduler -/

namespace Centralized

/-- What a reservation holds over its window is at least the loads it was made for. -/
def Charge.CoversLoads (c : Charge) : Prop :=
  c.d_i ≤ c.span * (c.d_i / c.span) ∧
    ∀ r b, c.b_ir.lookup r = some b → b ≤ c.span * (b / c.span)

theorem Charge.coversLoads_iff {c : Charge} : c.CoversLoads ↔
    c.span ∣ c.d_i ∧ ∀ r b, c.b_ir.lookup r = some b → c.span ∣ b := by
  simp only [Charge.CoversLoads, floor_covers_iff]

/-- Reservations are made for a span that the bottleneck load fixes. -/
def SpansFit (cfg : Config) (charges : List Charge) : Prop :=
  ∀ c ∈ charges, c.span = spanOf cfg c.d_i

theorem scheduleTask_spans {cfg : Config} {slot : Nat} {tid : TaskId} {st st' : State}
    {charges : List Charge} (h : scheduleTask cfg slot tid st = some (st', charges)) :
    SpansFit cfg charges := by
  rcases scheduleTask_cases h with ⟨-, -, rfl⟩ |
    ⟨task, ledger, -, -, ⟨rfl, -⟩ | ⟨t, ledger', subs, -, -, -, -, -, rfl, -⟩⟩
  · exact fun c hc => nomatch hc
  · exact fun c hc => nomatch hc
  · exact List.forall_mem_singleton.mpr rfl

theorem runScheduling_spans {cfg : Config} {now : Rat} {order : List TaskId} {st st' : State}
    {charges : List Charge} (h : runScheduling cfg now order st = some (st', charges)) :
    SpansFit cfg charges := by
  induction order generalizing st charges with
  | nil =>
    cases h
    exact fun c hc => nomatch hc
  | cons tid order ih =>
    obtain ⟨st₁, new, more, hstep, hrest, rfl⟩ := runScheduling_cons h
    exact List.forall_mem_append.mpr ⟨ih hrest, scheduleTask_spans hstep⟩

theorem reachable_spans {cfg : Config} {w : World} (h : Reachable cfg w) :
    SpansFit cfg w.charges := by
  induction h with
  | init => exact fun c hc => nomatch hc
  | call _ _ hcall ih =>
    refine List.forall_mem_append.mpr ⟨?_, ih⟩
    rcases checkAdmission_cases hcall with ⟨-, -, -, rfl⟩ | ⟨-, -, rfl, -⟩ |
      ⟨_, -, -, -, -, hpass, -, -⟩
    · exact fun c hc => nomatch hc
    · exact fun c hc => nomatch hc
    · exact runScheduling_spans hpass

end Centralized

/-! ## 2. DistributedAgingScheduler -/

variable {e e' : LocalEvent} {id : EventId}

namespace DistributedAging

open AssocMap

variable {cfg : Config} {sort : StdSort.Sorter EventLess} {now : Time}

/-- What a task sends. -/
def sentTotal (task : MoeTask) : Nat := (task.sendFlows.entries.map (·.2)).sum

/-- What a task sends to a leaf. -/
def sentTo (cfg : Config) (task : MoeTask) (d : Leaf) : Nat :=
  (task.sendFlows.entries.map fun kv => if u32 (kv.1 / cfg.k) = d then kv.2 else 0).sum

/-- What an event reserves over a window is at least what its task sends. -/
def LocalEvent.CoversTask (cfg : Config) (e : LocalEvent) (task : MoeTask) : Prop :=
  sentTotal task ≤ e.span * e.srcReq ∧ ∀ d, sentTo cfg task d ≤ e.span * e.footAt d

/-- The slots an event of `bytes` bytes spans. -/
def spanOf (cfg : Config) (bytes : Nat) : Nat :=
  let span := u32 (bytes + cfg.rSlot - 1) / cfg.rSlot
  if span = 0 then 1 else span

theorem sentTo_le (task : MoeTask) (d : Leaf) : sentTo cfg task d ≤ sentTotal task :=
  List.sum_le_sum fun kv _ => by
    split
    · exact le_refl kv.2
    · exact Nat.zero_le kv.2

theorem b_eq_sentTotal (eId : EventId) (rank : Rank) (task : MoeTask) :
    (newEvent cfg eId rank task now).b = u32 (sentTotal task) := by
  have hfold : ∀ (l : List (Sigma fun _ : Rank => Nat)) (b : Nat),
      l.foldl (fun b kv => u32 (b + kv.2)) (u32 b) = u32 (b + (l.map (·.2)).sum) := by
    intro l
    induction l with
    | nil => exact fun b => rfl
    | cons kv l ih =>
      intro b
      have hstep : u32 (u32 b + kv.2) = u32 (b + kv.2) := Nat.mod_add_mod _ _ _
      rw [List.foldl_cons, hstep, ih, List.map_cons, List.sum_cons, add_assoc]
  exact (hfold task.sendFlows.entries 0).trans (congrArg u32 (zero_add _))

theorem lookup_bytesByLeafOf (task : MoeTask) (d : Leaf) :
    ((bytesByLeafOf cfg task).lookup d).getD 0 = u32 (sentTo cfg task d) := by
  have hfold : ∀ (l : List (Sigma fun _ : Rank => Nat)) (m : AList fun _ : Leaf => Nat) (b : Nat),
      (m.lookup d).getD 0 = u32 b →
      ((l.foldl (fun bytes kv => bytes.insert (u32 (kv.1 / cfg.k))
        (u32 ((bytes.lookup (u32 (kv.1 / cfg.k))).getD 0 + kv.2))) m).lookup d).getD 0 =
          u32 (b + (l.map fun kv => if u32 (kv.1 / cfg.k) = d then kv.2 else 0).sum) := by
    intro l
    induction l with
    | nil => exact fun m b hb => hb
    | cons kv l ih =>
      intro m b hb
      rw [List.foldl_cons, List.map_cons, List.sum_cons, ← add_assoc]
      refine ih _ _ ?_
      split
      · next hd =>
        rw [hd, AList.lookup_insert, Option.getD_some, hb]
        exact Nat.mod_add_mod _ _ _
      · next hd => rw [AList.lookup_insert_ne (Ne.symm hd), hb, add_zero]
  exact (hfold task.sendFlows.entries ∅ 0 rfl).trans (congrArg u32 (zero_add _))

theorem footAt_newEvent (eId : EventId) (rank : Rank) (task : MoeTask) (d : Leaf) :
    (newEvent cfg eId rank task now).footAt d =
      u32 (sentTo cfg task d) / (newEvent cfg eId rank task now).span := by
  rw [LocalEvent.footAt, (shaped_newEvent eId rank task).foot, lookup_mapVal,
    ← lookup_bytesByLeafOf task d]
  cases hbytes : (newEvent cfg eId rank task now).bytesByLeaf.lookup d with
  | none =>
    have hnone : (bytesByLeafOf cfg task).lookup d = none := hbytes
    rw [hnone, Option.map_none, Option.getD_none, Nat.zero_div]
  | some bytes =>
    have hsome : (bytesByLeafOf cfg task).lookup d = some bytes := hbytes
    rw [hsome, Option.map_some, Option.getD_some, Option.getD_some]

/-- Nothing of what a task sends wraps, or is cut off in the quotients of a window. -/
def Fits (cfg : Config) (task : MoeTask) : Prop :=
  sentTotal task < 2 ^ 32 ∧ spanOf cfg (sentTotal task) ∣ sentTotal task ∧
    ∀ d, spanOf cfg (sentTotal task) ∣ sentTo cfg task d

theorem coversTask_newEvent (eId : EventId) (rank : Rank) (task : MoeTask) :
    (newEvent cfg eId rank task now).CoversTask cfg task ↔ Fits cfg task := by
  have hspan : (newEvent cfg eId rank task now).span =
      spanOf cfg (newEvent cfg eId rank task now).b := rfl
  rw [LocalEvent.CoversTask, LocalEvent.srcReq, b_eq_sentTotal, u32_covers_iff, hspan,
    b_eq_sentTotal]
  simp only [footAt_newEvent, u32_covers_iff, hspan, b_eq_sentTotal]
  constructor
  · rintro ⟨⟨hlt, hdvd⟩, hleaves⟩
    rw [u32_of_lt hlt] at hdvd hleaves
    exact ⟨hlt, hdvd, fun d => (hleaves d).2⟩
  · rintro ⟨hlt, hdvd, hleaves⟩
    rw [u32_of_lt hlt]
    exact ⟨⟨hlt, hdvd⟩, fun d => ⟨(sentTo_le task d).trans_lt hlt, hleaves d⟩⟩

/-- What an event reserves in a slot, and in how many, stays. -/
def SameBytes (e e' : LocalEvent) : Prop := e'.b = e.b ∧ e'.span = e.span ∧ e'.foot = e.foot

theorem SameBytes.trans {e'' : LocalEvent} (h : SameBytes e e') (h' : SameBytes e' e'') :
    SameBytes e e'' :=
  ⟨h'.1.trans h.1, h'.2.1.trans h.2.1, h'.2.2.trans h.2.2⟩

theorem SameBytes.coversTask_iff (h : SameBytes e e') {task : MoeTask} :
    e'.CoversTask cfg task ↔ e.CoversTask cfg task := by
  simp only [LocalEvent.CoversTask, LocalEvent.srcReq, LocalEvent.footAt, h.1, h.2.1, h.2.2]

theorem Passed.sameBytes (h : Passed cfg now id e e') : SameBytes e e' := by
  rcases h with rfl | ⟨-, prio, rfl | ⟨lb, s, lb', k, -, rfl⟩⟩ <;> exact ⟨rfl, rfl, rfl⟩

theorem Requested.sameBytes (h : Requested now id e e') : SameBytes e e' := by
  rcases h with rfl | ⟨-, age, was, requests, prio, x, -, rfl⟩ <;> exact ⟨rfl, rfl, rfl⟩

/-- The broker has the event, with what it reserves. -/
def Keeps {n : Nat} (brokers : Fin n → LeafBroker) (i : Fin n) (id : EventId) (e : LocalEvent) :
    Prop :=
  ∃ e', (brokers i).localEvents.lookup id = some e' ∧ SameBytes e e'

theorem Keeps.update {n : Nat} {brokers : Fin n → LeafBroker} {i j : Fin n} {lb : LeafBroker}
    {R : EventId → LocalEvent → LocalEvent → Prop} (h : Keeps brokers i id e)
    (hchanged : Changed R (brokers j).localEvents lb.localEvents)
    (hR : ∀ id e e', R id e e' → SameBytes e e') : Keeps (Function.update brokers j lb) i id e := by
  obtain ⟨e₁, he₁, hsame⟩ := h
  rcases eq_or_ne i j with rfl | hne
  · obtain ⟨e₂, he₂, hr⟩ := hchanged.lookup_of he₁
    exact ⟨e₂, by rw [update_self, he₂], hsame.trans (hR id e₁ e₂ hr)⟩
  · exact ⟨e₁, by rw [update_of_ne hne, he₁], hsame⟩

theorem onEpochTimer_keepsBytes {n : Nat} {st : State n} (hled : Ledger cfg st.brokers) {i : Fin n}
    (h : Keeps st.brokers i id e) : Keeps (onEpochTimer cfg sort now st).brokers i id e := by
  refine onEpochTimer_keeps (P := fun brokers => Keeps brokers i id e) hled
    (fun brokers queues j hled h => ?_) (fun brokers queues d hled h => ?_)
    (fun brokers j hled h => ?_) h
  · obtain ⟨lb, heq, hchanged⟩ := requestPhase_update sort now queues hled j
    rw [heq]
    exact h.update hchanged fun _ _ _ => Requested.sameBytes
  · obtain ⟨e', he', hsame⟩ := h
    exact ⟨e', by rw [localEvents_grantQuota hled d i, he'], hsame⟩
  · exact h.update (fastControlPath_events (hled.balanced j) (hled.settled j))
      fun _ _ _ => Passed.sameBytes

theorem Step.keepsBytes {w w' : World cfg} {input : Input} (hreach : Reachable cfg sort w)
    (hstep : Step cfg sort w input w') {i : Fin cfg.numLeafs} (h : Keeps w.state.brokers i id e) :
    Keeps w'.state.brokers i id e := by
  have hled := reachable_ledger hreach
  cases hstep with
  | @call rank task now _ _ _ _ hcall =>
    rcases checkAdmission_cases hcall with heq | ⟨j, eId, hnew, heq⟩
    · exact heq ▸ h
    · obtain ⟨hbal, hs, -⟩ := register_spec (e := newEvent cfg eId rank task now)
        (hled.balanced j) (hled.settled j) hnew rfl rfl
      have hregistered : Keeps (Function.update w.state.brokers j
          (register (w.state.brokers j) (newEvent cfg eId rank task now))) i id e := by
        obtain ⟨e', he', hsame⟩ := h
        refine ⟨e', ?_, hsame⟩
        rcases eq_or_ne i j with rfl | hne
        · have hid : id ≠ eId := fun heq => hnew (AList.lookup_isSome.mp (by rw [← heq, he']; rfl))
          rw [update_self, register]
          exact (AList.lookup_insert_ne hid).trans he'
        · rw [update_of_ne hne, he']
      have hpassed : Changed (Passed cfg now) (register (w.state.brokers j)
          (newEvent cfg eId rank task now)).localEvents (fastControlPath cfg sort now
            (register (w.state.brokers j) (newEvent cfg eId rank task now))).localEvents :=
        fastControlPath_events hbal hs
      have hkeeps := hregistered.update (j := j) (by rwa [update_self])
        fun _ _ _ => Passed.sameBytes
      rw [update_idem] at hkeeps
      exact heq ▸ hkeeps
  | epoch _ => exact onEpochTimer_keepsBytes hled h

theorem run_keepsBytes {P : Input → Prop} {w w' : World cfg} (hreach : Reachable cfg sort w)
    (hrun : Run cfg sort P w w') {i : Fin cfg.numLeafs} (h : Keeps w.state.brokers i id e) :
    Keeps w'.state.brokers i id e := by
  induction hrun with
  | refl => exact h
  | tail hrun hstep ih =>
    obtain ⟨input, -, hstep⟩ := hstep
    exact hstep.keepsBytes (Run.reachable hrun hreach) ih

theorem call_keepsBytes {w w' : World cfg} {rank : Rank} {task : MoeTask} {now : Time}
    (hreach : Reachable cfg sort w) {i : Fin cfg.numLeafs} (hi : i.val = u32 (rank / cfg.k))
    (hnew : (w.state.brokers i).localEvents.lookup (eventIdOf rank task) = none)
    (hstep : Step cfg sort w (.call rank task now) w') :
    Keeps w'.state.brokers i (eventIdOf rank task)
      (newEvent cfg (eventIdOf rank task) rank task now) := by
  have hled := reachable_ledger hreach
  cases hstep with
  | call _ _ hcall =>
    obtain ⟨j, hj, hcase⟩ := checkAdmission_brokers hcall
    obtain rfl : i = j := Fin.ext (hi.trans hj.symm)
    obtain ⟨e, he, -⟩ | ⟨-, heq⟩ := hcase
    · cases hnew.symm.trans he
    obtain ⟨hbal, hs, -⟩ := register_spec
      (e := newEvent cfg (eventIdOf rank task) rank task now) (hled.balanced _) (hled.settled _)
      (AList.lookup_eq_none.mp hnew) rfl rfl
    have hpass : Changed (Passed cfg now) _ (fastControlPath cfg sort now _).localEvents :=
      fastControlPath_events hbal hs
    obtain ⟨e', he', hpassed⟩ := hpass.lookup_of (AList.lookup_insert _)
    refine ⟨e', ?_, hpassed.sameBytes⟩
    simp only [heq, update_self]
    exact he'

end DistributedAging

/-! ## 3. Both schedulers -/

/-- Every reservation of the centralized scheduler covers its loads if and only if the span divides
them. In the distributed one the event that the first call for a task registers covers what the
task sends, in every later state, if and only if nothing wraps and the span divides all of it. -/
theorem reservations_cover_iff (central : Centralized.Config) (cfg : DistributedAging.Config)
    (sort : StdSort.Sorter DistributedAging.EventLess) :
    (∀ (w : Centralized.World), Centralized.Reachable central w →
      ∀ c ∈ w.charges, (c.CoversLoads ↔ Centralized.spanOf central c.d_i ∣ c.d_i ∧
        ∀ r b, c.b_ir.lookup r = some b → Centralized.spanOf central c.d_i ∣ b)) ∧
    ∀ (w w₁ w₂ : DistributedAging.World cfg) (rank : Rank) (task : MoeTask)
      (now : DistributedAging.Time) (i : Fin cfg.numLeafs) (e : DistributedAging.LocalEvent),
      DistributedAging.Reachable cfg sort w → i.val = u32 (rank / cfg.k) →
      (w.state.brokers i).localEvents.lookup (DistributedAging.eventIdOf rank task) = none →
      DistributedAging.Step cfg sort w (.call rank task now) w₁ →
      DistributedAging.Run cfg sort (fun _ => True) w₁ w₂ →
      (w₂.state.brokers i).localEvents.lookup (DistributedAging.eventIdOf rank task) = some e →
      (e.CoversTask cfg task ↔ DistributedAging.Fits cfg task) := by
  constructor
  · intro w hreach c hc
    rw [Centralized.Charge.coversLoads_iff, Centralized.reachable_spans hreach c hc]
  · intro w w₁ w₂ rank task now i e hreach hi hnew hstep hrun he
    have hreach₁ := DistributedAging.Run.reachable (P := fun _ => True)
      (Relation.ReflTransGen.single ⟨_, trivial, hstep⟩) hreach
    obtain ⟨e', he', hsame⟩ := DistributedAging.run_keepsBytes hreach₁ hrun
      (DistributedAging.call_keepsBytes hreach hi hnew hstep)
    obtain rfl := Option.some.inj (he.symm.trans he')
    rw [hsame.coversTask_iff, DistributedAging.coversTask_newEvent]

namespace Centralized

/-- The reservation for a task of one rank is made for the bytes it reported. -/
theorem solo_charge (rank : Rank) {bytes : Nat} (hpos : 0 < bytes) (hle : bytes ≤ 20000) :
    ∃ w, Reachable (construct 1 2) w ∧ ∃ c ∈ w.charges, c.d_i = bytes ∧
      c.b_ir = (∅ : AList fun _ : Rank => Nat).insert rank bytes := by
  obtain ⟨st, new, hcall⟩ := solo_admitted rank hpos hle
  refine ⟨_, .call .init (solo_admissible (construct 1 2) bytes) hcall, ?_⟩
  have hlt : bytes < 2 ^ 64 := hle.trans_lt (by decide)
  have htask : (reportReady (construct 1 2) rank (soloTask bytes) 0
      (State.init (construct 1 2))).pool.lookup 7 =
        some (reportedTask (construct 1 2) rank (soloTask bytes) 0 (State.init (construct 1 2))) :=
    AList.lookup_insert _
  have hloads : (reportedTask (construct 1 2) rank (soloTask bytes) 0
      (State.init (construct 1 2))).b_ir = (∅ : AList fun _ : Rank => Nat).insert rank bytes :=
    congrArg (AList.insert rank · _) (solo_load hlt)
  rcases checkAdmission_cases hcall with ⟨-, -, hret, -⟩ |
    ⟨-, -, -, ⟨hsch, -⟩ | ⟨-, hret⟩⟩ | ⟨st₁, -, -, -, -, hpass, -, hret⟩
  · cases hret
  · cases hsch
  · cases hret
  obtain ⟨st₂, charges, more, hstep, hrest, rfl⟩ := runScheduling_cons hpass
  cases hrest
  rcases scheduleTask_cases hstep with ⟨hnone, -, -⟩ |
    ⟨task, ledger, hlook, -, ⟨-, rfl⟩ | ⟨t, ledger', subs, -, -, -, -, -, rfl, -⟩⟩
  · cases hnone.symm.trans htask
  · -- a task without a window is not admitted
    obtain rfl := Option.some.inj (htask.symm.trans hlook)
    rw [show (soloTask bytes).taskId = 7 from rfl, AList.lookup_insert] at hret
    cases hret
  · obtain rfl := Option.some.inj (htask.symm.trans hlook)
    exact ⟨_, List.mem_cons_self, solo_d_i _ hlt, hloads⟩

theorem spanOf_solo : spanOf (construct 1 2) 20000 = 2 ∧ spanOf (construct 1 2) 12501 = 2 := by
  have hslot : (construct 1 2).rSlot = 12500 := by decide +kernel
  rw [spanOf, spanOf, hslot]
  decide

end Centralized

/-- Two slots are enough for 20000 bytes of a rank, and ten bytes fit in one slot of a leaf. -/
theorem reservations_cover_solo :
    (∃ w, Centralized.Reachable (Centralized.construct 1 2) w ∧
      ∃ c ∈ w.charges, c.d_i = 20000 ∧ c.CoversLoads) ∧
    ∃ e : DistributedAging.LocalEvent,
      ((DistributedAging.reported 0 DistributedAging.wide {}).brokers
        ⟨0, by decide⟩).localEvents.lookup (DistributedAging.eventIdOf 0 DistributedAging.wide) =
          some e ∧ e.CoversTask DistributedAging.rivalsCfg DistributedAging.wide := by
  constructor
  · obtain ⟨w, hreach, c, hc, hd, hb⟩ := Centralized.solo_charge 0 (by decide) (le_refl _)
    refine ⟨w, hreach, c, hc, hd, ((reservations_cover_iff _ DistributedAging.rivalsCfg
      DistributedAging.rivalsSort).1 w hreach c hc).mpr ?_⟩
    rw [hd, hb, Centralized.spanOf_solo.1]
    refine ⟨by decide, fun r b hlook => ?_⟩
    rcases eq_or_ne r 0 with rfl | hne
    · rw [AList.lookup_insert] at hlook
      cases hlook
      decide
    · rw [AList.lookup_insert_ne hne] at hlook
      cases hlook
  · obtain ⟨ret, hcall, -⟩ := DistributedAging.checkAdmission_reported DistributedAging.wide {}
      (by decide : u32 (0 / DistributedAging.rivalsCfg.k) < DistributedAging.rivalsCfg.numLeafs)
    have hsome : (((DistributedAging.reported 0 DistributedAging.wide {}).brokers
        ⟨0, by decide⟩).localEvents.lookup
          (DistributedAging.eventIdOf 0 DistributedAging.wide)).isSome = true := by decide +kernel
    obtain ⟨e, he⟩ := Option.isSome_iff_exists.mp hsome
    refine ⟨e, he, ((reservations_cover_iff (Centralized.construct 1 2) DistributedAging.rivalsCfg
      DistributedAging.rivalsSort).2 {} _ _ 0 DistributedAging.wide 0 ⟨0, by decide⟩ e .init rfl rfl
      (.call (le_refl _) (fun t ht => nomatch ht) hcall) .refl he).mpr ?_⟩
    -- the ten bytes span one slot
    have hspan : DistributedAging.spanOf DistributedAging.rivalsCfg
        (DistributedAging.sentTotal DistributedAging.wide) = 1 := by decide +kernel
    refine ⟨by decide +kernel, ?_⟩
    rw [hspan]
    exact ⟨Nat.one_dvd _, fun d => Nat.one_dvd _⟩

/-- Of 12501 bytes in two slots one is not reserved. -/
theorem reservation_short : ∃ w, Centralized.Reachable (Centralized.construct 1 2) w ∧
    ∃ c ∈ w.charges, ¬c.CoversLoads := by
  obtain ⟨w, hreach, c, hc, hd, -⟩ :=
    Centralized.solo_charge 0 (by decide : 0 < 12501) (by decide)
  refine ⟨w, hreach, c, hc, fun hcovers => ?_⟩
  have hdvd := (Centralized.Charge.coversLoads_iff.mp hcovers).1
  rw [Centralized.reachable_spans hreach c hc, hd, Centralized.spanOf_solo.2] at hdvd
  exact absurd hdvd (by decide)

end MoeJit
