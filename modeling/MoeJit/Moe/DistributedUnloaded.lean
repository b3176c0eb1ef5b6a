import MoeJit.Moe.DistributedSafety

/-!
# An event without rivals

An event whose turn comes in an epoch with free ledgers. The four searches on
its way, at the source for the request, at each destination for the grant, and
in `FastControlPath`, all stop at their first slot, so that the event is
committed to the window at `max(readySlot, current slot)` (`unloaded_commit`).
What it asks of a slot fits, because it spans as many slots as its bytes fill at
`rSlot` bytes each, and a slot has a capacity of at least `rSlot`.

The ledgers alone do not decide this: an event that comes before another one in
the same epoch takes what was free (`unloaded_rivals`).
-/

namespace MoeJit.DistributedAging

open Words StdSort AssocMap FirstFit List Function
open Function (update)

variable {cfg : Config} {sort : Sorter EventLess} {now : Time}

/-! ## 1. The load of an event -/

/-- The bytes of an event, its span and its footprints belong together. -/
structure Shaped (cfg : Config) (e : LocalEvent) : Prop where
  b : e.b = u32 (total (fun _ bytes => bytes) e.bytesByLeaf)
  span : e.span = if u32 (e.b + cfg.rSlot - 1) / cfg.rSlot = 0 then 1
    else u32 (e.b + cfg.rSlot - 1) / cfg.rSlot
  foot : e.foot = mapVal (fun _ bytes => bytes / e.span) e.bytesByLeaf

theorem total_insert_lookup (m : AList fun _ : Leaf => Nat) (k : Leaf) (v : Nat) :
    total (fun _ bytes => bytes) (m.insert k v) + (m.lookup k).getD 0 =
      total (fun _ bytes => bytes) m + v := by
  cases hk : m.lookup k with
  | none =>
    rw [total_insert (AList.lookup_eq_none.mp hk), Option.getD_none, add_zero, add_comm]
  | some old => exact total_insert_of_lookup hk v fun _ bytes => bytes

/-- The bytes by leaf add up to the bytes of the event, up to what wraps. -/
theorem b_newEvent (task : MoeTask) : task.sendFlows.entries.foldl (fun b kv => u32 (b + kv.2)) 0 =
      u32 (total (fun _ bytes => bytes) (bytesByLeafOf cfg task)) := by
  have hfold : ∀ (l : List (Sigma fun _ : Rank => Nat)) (b : Nat) (m : AList fun _ : Leaf => Nat),
      b = u32 (total (fun _ bytes => bytes) m) →
      l.foldl (fun b kv => u32 (b + kv.2)) b = u32 (total (fun _ bytes => bytes)
        (l.foldl (fun bytes kv => bytes.insert (u32 (kv.1 / cfg.k))
          (u32 ((bytes.lookup (u32 (kv.1 / cfg.k))).getD 0 + kv.2))) m)) := by
    intro l
    induction l with
    | nil => exact fun b m hb => hb
    | cons kv l ih =>
      intro b m hb
      rw [foldl_cons, foldl_cons]
      refine ih _ _ ?_
      have hinsert := total_insert_lookup m (u32 (kv.1 / cfg.k))
        (u32 ((m.lookup (u32 (kv.1 / cfg.k))).getD 0 + kv.2))
      rw [hb]
      simp only [u32] at *
      omega
  exact hfold _ 0 ∅ rfl

theorem shaped_newEvent (eId : EventId) (rank : Rank) (task : MoeTask) :
    Shaped cfg (newEvent cfg eId rank task now) := ⟨b_newEvent task, rfl, rfl⟩

variable {e e' : LocalEvent} {id : EventId} {lb : LeafBroker}

theorem Shaped.passed (h : Shaped cfg e) (hpass : Passed cfg now id e e') : Shaped cfg e' := by
  rcases hpass with rfl | ⟨-, prio, rfl | ⟨lb, s, lb', k, -, rfl⟩⟩
  · exact h
  · exact ⟨h.b, h.span, h.foot⟩
  · exact ⟨h.b, h.span, h.foot⟩

theorem Shaped.requested (h : Shaped cfg e) (hreq : Requested now id e e') : Shaped cfg e' := by
  rcases hreq with rfl | ⟨-, age, was, requests, prio, x, -, rfl⟩
  · exact h
  · exact ⟨h.b, h.span, h.foot⟩

theorem reachable_shaped {w : World cfg} (h : Reachable cfg sort w) :
    EventsOk (Shaped cfg) w.state.brokers :=
  run_events (P := fun _ e => Shaped cfg e) (fun _ _ _ _ _ hs => hs)
    (fun id rank task _ _ _ => shaped_newEvent id rank task)
    (fun _ _ _ _ _ _ hpass hs => hs.passed hpass) (fun _ _ _ _ _ _ hreq hs => hs.requested hreq)
    h.run

theorem Shaped.total_le {e : LocalEvent} (h : Shaped cfg e)
    (hbytes : total (fun _ bytes => bytes) e.bytesByLeaf + cfg.rSlot ≤ 2 ^ 32) :
    e.b = total (fun _ bytes => bytes) e.bytesByLeaf ∧
      total (fun _ bytes => bytes) e.bytesByLeaf ≤ e.span * cfg.rSlot := by
  have hpos := cfg.rSlot_pos
  have hb := h.b
  rw [u32_of_lt (by omega)] at hb
  have hspan := h.span
  rw [u32_of_lt (by omega), hb] at hspan
  refine ⟨hb, ?_⟩
  generalize total (fun _ bytes => bytes) e.bytesByLeaf = t at hspan hbytes
  have hdiv := Nat.div_add_mod (t + cfg.rSlot - 1) cfg.rSlot
  have hmod := Nat.mod_lt (t + cfg.rSlot - 1) hpos
  rw [mul_comm] at hdiv
  split at hspan
  · next hzero =>
    rw [hzero, Nat.zero_mul] at hdiv
    rw [hspan, one_mul]
    omega
  · rw [hspan]
    omega

/-- What an event asks of a slot at its source and at a destination. -/
theorem Shaped.load_le (h : Shaped cfg e)
    (hbytes : total (fun _ bytes => bytes) e.bytesByLeaf + cfg.rSlot ≤ 2 ^ 32) :
    e.srcReq ≤ cfg.rSlot ∧ ∀ d amount, e.foot.lookup d = some amount → amount ≤ cfg.rSlot := by
  obtain ⟨hb, hle⟩ := h.total_le hbytes
  refine ⟨Nat.div_le_of_le_mul (hb.trans_le hle), fun d amount hfoot => ?_⟩
  rw [h.foot, lookup_mapVal, Option.map_eq_some_iff] at hfoot
  obtain ⟨bytes, hbytes', rfl⟩ := hfoot
  exact Nat.div_le_of_le_mul ((le_total hbytes' fun _ bytes => bytes).trans hle)

/-- A slot has room for what a slot carries, unless the capacity wraps. -/
theorem rSlot_le_capacityPerSlot {k : Nat} (k_pos : 0 < k) (numLeafs : Nat) (mode : Mode)
    {scaleFactor : Rat} (hscale : 0 < scaleFactor) (hrange : 125000 * scaleFactor * k < 2 ^ 32) :
    (construct k k_pos numLeafs mode scaleFactor).rSlot ≤
      (construct k k_pos numLeafs mode scaleFactor).capacityPerSlot := by
  have hk : (1 : Rat) ≤ k := by exact_mod_cast k_pos
  have hle : 100000 * scaleFactor ≤ 125000 * scaleFactor * k := by nlinarith
  have hfloor := Nat.floor_le_floor hle
  have hlt : ⌊125000 * scaleFactor * k⌋₊ < 2 ^ 32 :=
    (Nat.floor_lt (by positivity)).mpr (by exact_mod_cast hrange)
  simp only [construct]
  rw [u32_of_lt hlt, u32_of_lt (hfloor.trans_lt hlt)]
  split <;> split <;> omega

/-! ## 2. Requests -/

theorem Requested.eligible (h : Requested now id e e') : eligible now e' = eligible now e := by
  rcases h with rfl | ⟨-, age, was, requests, prio, x, -, rfl⟩ <;> rfl

theorem order_alone (hbal : Balanced cfg lb) (hs : Settled lb)
    (he : lb.localEvents.lookup id = some e) (helig : eligible now e = true)
    (hown : ∀ id' e', lb.localEvents.lookup id' = some e' → eligible now e' = true → id' = id) :
    sort.run (lb.events.filter (eligible now)) = [e] := by
  obtain ⟨hnodup, horder⟩ := eligible_order sort now hbal hs
  have hmem : e ∈ sort.run (lb.events.filter (eligible now)) := by
    rw [(sort.isSortOf _).mem_iff, mem_filter]
    exact ⟨mem_map.mpr ⟨⟨id, e⟩, mem_entries_iff.mpr he, rfl⟩, helig⟩
  have hsame : ∀ e' ∈ sort.run (lb.events.filter (eligible now)), e' = e := by
    intro e' he'
    obtain ⟨hlook, helig', -⟩ := horder e' he'
    rw [hown _ e' hlook helig'] at hlook
    exact Option.some.inj (hlook.symm.trans he)
  generalize sort.run (lb.events.filter (eligible now)) = order at hnodup hmem hsame
  have hone := eq_replicate_of_mem hsame
  have hnodup' := List.Nodup.of_map _ hnodup
  rw [hone, nodup_replicate] at hnodup'
  have hpos := length_pos_of_mem hmem
  rw [hone, show order.length = 1 by omega]
  rfl

section

variable {n : Nat}

/-- The request of an event to leaf `d`. -/
def requestTo (i : Fin n) (e : LocalEvent) (s : Slot) (d : Leaf) : List (Request n) :=
  (e.foot.lookup d).elim [] fun amount =>
    [⟨e.eventId, i, s, e.span, amount, e.b, e.prio, e.tPred⟩]

theorem foldl_requests (i : Fin n) (e : LocalEvent) (s : Slot) (queues : DestQueues n) :
    e.foot.entries.foldl (fun (queues : DestQueues n) kv => update queues kv.1
      (queues kv.1 ++ [⟨e.eventId, i, s, e.span, kv.2, e.b, e.prio, e.tPred⟩])) queues =
    fun d => queues d ++ requestTo i e s d := by
  funext d
  rw [foldl_update e.foot (fun amount (queue : List (Request n)) =>
    queue ++ [(⟨e.eventId, i, s, e.span, amount, e.b, e.prio, e.tPred⟩ : Request n)]) queues d,
    requestTo]
  cases e.foot.lookup d with
  | none => rw [Option.elim_none, Option.elim_none, append_nil]
  | some amount => rfl

variable (cfg) in
theorem requestEvent_queues (slot : Slot) (i : Fin n) (e : LocalEvent) (lb : LeafBroker)
    (prov : Dict) (queues : DestQueues n) :
    ∃ lb' prov' reqs, requestEvent cfg slot i (lb, prov, fun _ => []) e = (lb', prov', reqs) ∧
      requestEvent cfg slot i (lb, prov, queues) e = (lb', prov', fun d => queues d ++ reqs d) := by
  unfold requestEvent
  simp only [foldl_requests]
  split
  · exact ⟨_, _, fun _ => [], rfl, by simp only [append_nil]⟩
  · exact ⟨_, _, _, rfl, by simp only [nil_append]⟩

variable (cfg) in
theorem foldl_requestEvent_queues (slot : Slot) (i : Fin n) (order : List LocalEvent)
    (lb : LeafBroker) (prov : Dict) (queues : DestQueues n) :
    ∃ lb' prov' reqs,
      order.foldl (requestEvent cfg slot i) (lb, prov, fun _ => []) = (lb', prov', reqs) ∧
      order.foldl (requestEvent cfg slot i) (lb, prov, queues) =
        (lb', prov', fun d => queues d ++ reqs d) := by
  induction order generalizing lb prov queues with
  | nil => exact ⟨lb, prov, fun _ => [], rfl, by simp only [foldl_nil, append_nil]⟩
  | cons e order ih =>
    obtain ⟨lb₁, prov₁, reqs₁, hnil, hqueues⟩ := requestEvent_queues cfg slot i e lb prov queues
    obtain ⟨lb', prov', reqs, hnil', hqueues'⟩ := ih lb₁ prov₁ reqs₁
    obtain ⟨_, _, _, hnil'', hqueues''⟩ := ih lb₁ prov₁ fun d => queues d ++ reqs₁ d
    obtain ⟨rfl, rfl, rfl⟩ : lb' = _ ∧ prov' = _ ∧ reqs = _ := by
      simpa only [Prod.mk.injEq] using hnil'.symm.trans hnil''
    refine ⟨lb', prov', fun d => reqs₁ d ++ reqs d, ?_, ?_⟩
    · rw [foldl_cons, hnil, hqueues']
    · rw [foldl_cons, hqueues, hqueues'']
      simp only [append_assoc]

/-- The request phase of a leaf, apart from the other leaves. -/
def requestsOf (cfg : Config) (sort : Sorter EventLess) (now : Time) (i : Fin n)
    (lb : LeafBroker) : LeafBroker × DestQueues n :=
  let lb := lb.modifyAll (observe cfg now)
  let st := (sort.run (lb.events.filter (eligible now))).foldl
    (requestEvent cfg (slotOf now) i) (lb, lb.srcFree, fun _ => [])
  ({ st.1 with srcFree := { st.1.srcFree with wrapped := st.2.1.wrapped } }, st.2.2)

theorem requestPhase_eq (brokers : Fin n → LeafBroker) (queues : DestQueues n) (i : Fin n) :
    requestPhase cfg sort now (brokers, queues) i =
      (update brokers i (requestsOf cfg sort now i (brokers i)).1,
        fun d => queues d ++ (requestsOf cfg sort now i (brokers i)).2 d) := by
  unfold requestPhase requestsOf
  obtain ⟨lb', prov', reqs, hnil, hqueues⟩ := foldl_requestEvent_queues cfg (slotOf now) i
    (sort.run (((brokers i).modifyAll (observe cfg now)).events.filter (eligible now)))
    ((brokers i).modifyAll (observe cfg now)) ((brokers i).modifyAll (observe cfg now)).srcFree
    queues
  simp only [hnil, hqueues]

variable {l : List (Fin n)} {i : Fin n} {req : Request n} {brokers : Fin n → LeafBroker}

variable (cfg sort now) in
theorem requestPhases_eq (hl : l.Nodup) (brokers : Fin n → LeafBroker) (queues : DestQueues n) :
    l.foldl (requestPhase cfg sort now) (brokers, queues) =
      (fun j => if j ∈ l then (requestsOf cfg sort now j (brokers j)).1 else brokers j,
        fun d => queues d ++ l.flatMap fun j => (requestsOf cfg sort now j (brokers j)).2 d) := by
  induction l generalizing brokers queues with
  | nil => simp
  | cons i l ih =>
    obtain ⟨hi, hl⟩ := nodup_cons.mp hl
    have hne : ∀ j ∈ l, j ≠ i := fun j hj heq => hi (heq ▸ hj)
    rw [foldl_cons, requestPhase_eq, ih hl]
    refine Prod.ext (funext fun j => ?_) (funext fun d => ?_)
    · rcases eq_or_ne j i with rfl | hji
      · simp [hi]
      · simp [hji]
    · have hrest : (l.flatMap fun j => (requestsOf cfg sort now j (update brokers i
          (requestsOf cfg sort now i (brokers i)).1 j)).2 d) =
          l.flatMap fun j => (requestsOf cfg sort now j (brokers j)).2 d :=
        flatMap_congr fun j hj => by rw [update_of_ne (hne j hj)]
      simp only [hrest, flatMap_cons, append_assoc]

theorem queues_alone {f : Fin n → List (Request n)} (h : ∀ j, j ≠ i → f j = []) :
    (List.finRange n).flatMap f = f i := by
  obtain ⟨l₁, l₂, hsplit⟩ := append_of_mem (mem_finRange i)
  have hnodup := nodup_finRange n
  rw [hsplit, nodup_middle, nodup_cons, mem_append, not_or] at hnodup
  have hnil : ∀ l : List (Fin n), i ∉ l → l.flatMap f = [] := fun l hl =>
    flatMap_eq_nil_iff.mpr fun j hj => h j fun heq => hl (heq ▸ hj)
  rw [hsplit, flatMap_append, flatMap_cons, hnil l₁ hnodup.1.1, hnil l₂ hnodup.1.2,
    nil_append, append_nil]

theorem balanced_observed (hbal : Balanced cfg lb) (hs : Settled lb) (now : Time) :
    Balanced cfg (lb.modifyAll (observe cfg now)) ∧ Settled (lb.modifyAll (observe cfg now)) := by
  have hobserved : Changed (Observed now) lb.localEvents
      (lb.modifyAll (observe cfg now)).localEvents :=
    changed_modifyAll fun id e => observed_observe cfg now id e
  exact ⟨hbal.changed hobserved fun _ _ _ ho => ho.1,
    hs.changed hobserved fun _ _ _ ho => ⟨ho.1.start, ho.2.1⟩⟩

variable (cfg sort now) in
theorem requestPhase_self (brokers : Fin n → LeafBroker) (queues : DestQueues n) (i : Fin n) :
    (requestPhase cfg sort now (brokers, queues) i).1 i =
      (requestsOf cfg sort now i (brokers i)).1 := by
  rw [requestPhase_eq]
  exact update_self _ _ _

theorem requestsOf_ledgers (i : Fin n) (hbal : Balanced cfg lb) :
    (requestsOf cfg sort now i lb).1.srcFree = lb.srcFree ∧
    (requestsOf cfg sort now i lb).1.dstFree = lb.dstFree := by
  obtain ⟨events, heq, -⟩ : ∃ events, (requestPhase cfg sort now (fun _ => lb, fun _ => []) i).1 =
      update (fun _ => lb) i { lb with localEvents := events } ∧
      Changed (Observed now) lb.localEvents events :=
    requestPhase_spec sort now _ hbal
  have hself := requestPhase_self cfg sort now (fun _ => lb) (fun _ => []) i
  rw [heq, update_self] at hself
  rw [← hself]
  exact ⟨rfl, rfl⟩

/-- A leaf sends no request to a leaf that none of its eligible events goes to. -/
theorem requestsOf_nil (hbal : Balanced cfg lb) (hs : Settled lb) {d : Leaf}
    (hapart : ∀ id e, lb.localEvents.lookup id = some e → eligible now e = true →
      d ∉ e.foot) : (requestsOf cfg sort now i lb).2 d = [] := by
  obtain ⟨hbal', hs'⟩ := balanced_observed hbal hs now
  obtain ⟨-, horder⟩ := eligible_order sort now hbal' hs'
  have hnone : ∀ e ∈ sort.run ((lb.modifyAll (observe cfg now)).events.filter (eligible now)),
      e.foot.lookup d = none := by
    intro e he
    obtain ⟨hlook, helig, -⟩ := horder e he
    obtain ⟨e₀, he₀, rfl⟩ := Option.map_eq_some_iff.mp ((lookup_mapVal _ _ _).symm.trans hlook)
    rw [eligible_observe] at helig
    rw [(observed_observe cfg now e₀.eventId e₀).1.foot]
    exact AList.lookup_eq_none.mpr (hapart _ e₀ he₀ helig)
  unfold requestsOf
  simp only
  generalize sort.run ((lb.modifyAll (observe cfg now)).events.filter (eligible now)) = order
    at hnone
  refine List.foldlRecOn order (motive := fun st : LeafBroker × Dict × DestQueues n =>
    st.2.2 d = []) _ rfl ?_
  intro st hst e he
  obtain ⟨lb₁, prov, queues⟩ := st
  unfold requestEvent
  simp only [foldl_requests]
  split
  · exact hst
  · simp only [requestTo, hnone e he, Option.elim_none, append_nil]
    exact hst

theorem search_base {fits : Slot → Bool} {last : Slot → Slot} {base : Slot}
    (hbase : base + wSearch < 2 ^ 64) (hfits : ∀ u, base ≤ u → u < last base → fits u = true) :
    search fits last (u64 (base + wSearch)) base = some base :=
  search_first (by rw [u64_of_lt hbase]; exact Nat.lt_add_of_pos_right (by decide))
    fun u hu => hfits u (mem_window.mp hu).1 (mem_window.mp hu).2

/-- With free slots at the source an event asks for its base slot. -/
theorem requestEvent_base {slot : Slot} (i : Fin n) (lb : LeafBroker) {prov : Dict}
    (queues : DestQueues n) (hbase : max e.readySlot slot + wSearch < 2 ^ 64)
    (hfree : ∀ u, max e.readySlot slot ≤ u → e.srcReq ≤ getFree prov u cfg.capacityPerSlot) :
    ∃ prov', requestEvent cfg slot i (lb, prov, queues) e =
      (lb.modify e.eventId fun e' => { e' with earliestSlot := max e.readySlot slot }, prov',
        fun d => queues d ++ requestTo i e (max e.readySlot slot) d) := by
  have hfound : search (fun u => decide (e.srcReq ≤ getFree prov u cfg.capacityPerSlot))
      (fun s => u64 (s + e.span)) (u64 (max e.readySlot slot + wSearch)) (max e.readySlot slot) =
        some (max e.readySlot slot) :=
    search_base hbase fun u hu _ => decide_eq_true (hfree u hu)
  refine ⟨(e.window (max e.readySlot slot)).foldl
    (fun dict u => takeFree dict u cfg.capacityPerSlot e.srcReq) prov, ?_⟩
  unfold requestEvent
  simp only [hfound, foldl_requests]

theorem readySlot_observe (cfg : Config) (now : Time) (e : LocalEvent) :
    (observe cfg now e).readySlot = e.readySlot := by
  unfold observe
  split <;> rfl

variable (sort) in
/-- A leaf whose own slots are free requests the base slot for its event. -/
theorem requestsOf_alone (i : Fin n) (hbal : Balanced cfg lb) (hs : Settled lb)
    (he : lb.localEvents.lookup id = some e) (helig : eligible now e = true)
    (hown : ∀ id' e', lb.localEvents.lookup id' = some e' → eligible now e' = true → id' = id)
    (hbase : max e.readySlot (slotOf now) + wSearch < 2 ^ 64)
    (hfree : ∀ u, max e.readySlot (slotOf now) ≤ u →
      e.srcReq ≤ getFree lb.srcFree u cfg.capacityPerSlot) :
    (requestsOf cfg sort now i lb).1.localEvents.lookup id =
      some { observe cfg now e with earliestSlot := max e.readySlot (slotOf now) } ∧
    (requestsOf cfg sort now i lb).2 =
      requestTo i (observe cfg now e) (max e.readySlot (slotOf now)) := by
  obtain ⟨hbal', hs'⟩ := balanced_observed hbal hs now
  have hlook : (lb.modifyAll (observe cfg now)).localEvents.lookup id =
      some (observe cfg now e) := by
    rw [LeafBroker.modifyAll, lookup_mapVal, he, Option.map_some]
  have horder : sort.run ((lb.modifyAll (observe cfg now)).events.filter (eligible now)) =
      [observe cfg now e] := by
    refine order_alone hbal' hs' hlook (by rw [eligible_observe, helig]) fun id' e' he' helig' => ?_
    obtain ⟨e₀, he₀, rfl⟩ := Option.map_eq_some_iff.mp ((lookup_mapVal _ _ _).symm.trans he')
    rw [eligible_observe] at helig'
    exact hown id' e₀ he₀ helig'
  have hload := (observed_observe cfg now id e).1
  have hid := hload.eventId.trans (hbal.keyed id e he)
  have hready := readySlot_observe cfg now e
  rw [← hready] at hbase hfree ⊢
  rw [← hload.srcReq] at hfree
  generalize observe cfg now e = e₁ at *
  obtain ⟨prov', hevent⟩ := requestEvent_base i (lb.modifyAll (observe cfg now))
    (fun _ => []) hbase hfree
  unfold requestsOf
  simp only [horder, foldl_cons, foldl_nil]
  rw [show (lb.modifyAll (observe cfg now)).srcFree = lb.srcFree from rfl, hevent]
  refine ⟨?_, by simp only [nil_append]⟩
  rw [LeafBroker.modify, lookup_mapVal, hlook, Option.map_some, if_pos hid.symm]

/-! ## 3. Grants -/

theorem bestHead_alone {queues : Fin n → List (Request n)} (hself : queues i = [req])
    (hother : ∀ s, s ≠ i → queues s = []) : bestHead queues = some (i, req) := by
  have hstep : ∀ best s, best = none ∨ best = some (i, req) →
      betterHead queues best s = if s = i then some (i, req) else best := by
    intro best s hbest
    unfold betterHead
    split
    · next hnil =>
      rw [if_neg]
      rintro rfl
      rw [hself] at hnil
      cases hnil
    · next head rest hcons =>
      obtain rfl : s = i := by
        by_contra hne
        rw [hother s hne] at hcons
        cases hcons
      rw [hself] at hcons
      cases hcons
      rw [if_pos rfl]
    · next head rest best hcons =>
      obtain rfl : s = i := by
        by_contra hne
        rw [hother s hne] at hcons
        cases hcons
      rw [hself] at hcons
      cases hcons
      rw [if_pos rfl, hbest.resolve_left (by simp), ite_self]
  have hfold : ∀ (l : List (Fin n)) best, best = none ∨ best = some (i, req) →
      l.foldl (betterHead queues) best = if i ∈ l then some (i, req) else best := by
    intro l
    induction l with
    | nil => simp
    | cons s l ih =>
      intro best hbest
      rw [foldl_cons, hstep best s hbest]
      rcases eq_or_ne s i with rfl | hne
      · rw [if_pos rfl, ih _ (.inr rfl), ite_self, if_pos mem_cons_self]
      · rw [if_neg hne, ih best hbest]
        simp [hne.symm]
  rw [bestHead, hfold _ none (.inl rfl), if_pos (mem_finRange i)]

section

variable (hled : Ledger cfg brokers)
include hled

/-- What the grants of one leaf leave alone: the source slots of all leaves, and
what concerns another destination. -/
theorem grantQuota_frame (queues : DestQueues n) (d s : Fin n) :
    (grantQuota cfg queues brokers d s).srcFree = (brokers s).srcFree ∧
    ∀ d' : Fin n, d' ≠ d →
      (grantQuota cfg queues brokers d d').dstFree.val = (brokers d').dstFree.val ∧
      (grantQuota cfg queues brokers d s).grantedQuota d' = (brokers s).grantedQuota d' := by
  have hgrants := grantsOf_spec queues (hled.dst_le d)
  obtain ⟨_, _, _, heq, -, -⟩ := grantQuota_eq hgrants s
  refine ⟨by rw [heq], fun d' hne => ⟨?_, ?_⟩⟩
  · obtain ⟨_, _, _, heq', hval, -⟩ := grantQuota_eq hgrants d'
    rw [heq', hval, if_neg hne]
  · rw [heq]
    exact update_of_ne (fun h => hne (Fin.ext h)) _ _

theorem foldl_grantQuota_frame (queues : DestQueues n) (s : Fin n) :
    Ledger cfg (l.foldl (grantQuota cfg queues) brokers) ∧
    (l.foldl (grantQuota cfg queues) brokers s).localEvents = (brokers s).localEvents ∧
    (l.foldl (grantQuota cfg queues) brokers s).srcFree = (brokers s).srcFree ∧
    ∀ d ∉ l, (l.foldl (grantQuota cfg queues) brokers d).dstFree.val = (brokers d).dstFree.val ∧
      (l.foldl (grantQuota cfg queues) brokers s).grantedQuota d = (brokers s).grantedQuota d := by
  induction l generalizing brokers with
  | nil => exact ⟨hled, rfl, rfl, fun _ _ => ⟨rfl, rfl⟩⟩
  | cons d l ih =>
    obtain ⟨hsrc, hframe⟩ := grantQuota_frame hled queues d s
    obtain ⟨hled', hevents', hsrc', hframe'⟩ := ih (grantQuota_ledger hled d)
    refine ⟨hled', hevents'.trans (localEvents_grantQuota hled d s), hsrc'.trans hsrc,
      fun d' hd' => ?_⟩
    obtain ⟨hne, hnot⟩ := not_or.mp (mem_cons.not.mp hd')
    exact ⟨(hframe' d' hnot).1.trans (hframe d' hne).1, (hframe' d' hnot).2.trans (hframe d' hne).2⟩

section

variable {queues : DestQueues n} {d : Fin n} (hqueue : queues d = [req]) (hsrc : req.srcLeaf = i)
  (hbase : req.earliestSlot + wSearch < 2 ^ 64)
  (hfree : ∀ u, req.earliestSlot ≤ u →
    req.foot ≤ getFree (brokers d).dstFree u cfg.capacityPerSlot)
  {u : Slot} (hu : req.earliestSlot ≤ u) (hu' : u < u64 (req.earliestSlot + req.span))
include hqueue hsrc hbase hfree hu hu'

/-- A destination whose slots are free grants a request without rivals. -/
theorem grantQuota_alone :
    req.foot ≤ getFree ((grantQuota cfg queues brokers d i).grantedQuota d) u 0 := by
  have hgrants := grantsOf_spec queues (hled.dst_le d)
  have hbest : bestHead (fun s => [req].filter (·.srcLeaf = s)) = some (i, req) := by
    refine bestHead_alone (by simp [hsrc]) fun s hs => ?_
    simp [hsrc, hs.symm]
  have hserve : grantsOf cfg queues brokers d = serve cfg i req
      { lb := { brokers d with nextPhase := fun _ => none }
        provisionalDstFree := (brokers d).dstFree } := by
    unfold grantsOf
    simp only [hqueue, length_singleton, arbitrate, hbest]
  have hfound : search (fun u => decide (req.foot ≤ getFree (brokers d).dstFree u cfg.capacityPerSlot))
      (fun s => u64 (s + req.span)) (u64 (req.earliestSlot + wSearch)) req.earliestSlot =
        some req.earliestSlot :=
    search_base hbase fun u hu _ => decide_eq_true (hfree u hu)
  have hnew : ((grantsOf cfg queues brokers d).newQuota i u).getD 0 = req.foot := by
    rw [hserve]
    unfold serve
    simp only [hfound]
    obtain ⟨newPhase, nextPhase, heq⟩ := grantPhase_eq i req.earliestSlot
      ((window req.earliestSlot (u64 (req.earliestSlot + req.span))).foldl (grantSlot cfg i req)
        { lb := { brokers d with nextPhase := fun _ => none }
          provisionalDstFree := (brokers d).dstFree })
    rw [heq, foldl_grantSlot]
    simp only [update_self]
    have hfits : 0 + req.foot < 2 ^ 32 := by
      have hle := hfree req.earliestSlot (Nat.le_refl _)
      have hcap := hled.dst_le d req.earliestSlot
      have hlt := cfg.capacityPerSlot_lt
      omega
    rw [quota_spec (nodup_window _ _) (fun _ _ => hfits) u, if_pos (mem_window.mpr ⟨hu, hu'⟩)]
    exact Nat.zero_add _
  obtain ⟨_, _, _, heq, -, -⟩ := grantQuota_eq hgrants i
  rw [heq]
  simp only
  rw [getFree_deliver (hled.granted_lt hgrants i u), hnew]
  exact Nat.le_add_left _ _

theorem foldl_grantQuota_alone :
    req.foot ≤ getFree (((List.finRange n).foldl (grantQuota cfg queues) brokers i).grantedQuota d)
      u 0 := by
  obtain ⟨l₁, l₂, hsplit⟩ := append_of_mem (mem_finRange d)
  have hnodup := nodup_finRange n
  rw [hsplit, nodup_middle, nodup_cons, mem_append, not_or] at hnodup
  rw [hsplit, foldl_append, foldl_cons]
  obtain ⟨hled₁, -, -, hbefore⟩ := foldl_grantQuota_frame (l := l₁) hled queues i
  obtain ⟨-, -, -, hafter⟩ := foldl_grantQuota_frame (l := l₂) (grantQuota_ledger hled₁ d) queues i
  rw [(hafter d hnodup.1.2).2]
  refine grantQuota_alone hled₁ hqueue hsrc hbase (fun u hu => ?_) hu hu'
  rw [getFree, (hbefore d hnodup.1.1).1]
  exact hfree u hu

end

end

/-! ## 4. The commit -/

/-- An event of the leaf is committed to the window at `s`. -/
def CommittedTo (lb : LeafBroker) (id : EventId) (s : Slot) : Prop :=
  ∃ e, lb.localEvents.lookup id = some e ∧ e.committed = true ∧ e.start = some s

variable (sort) in
/-- With room in the window at its base slot an event without rivals in its leaf
is committed to it. -/
theorem fastControlPath_alone (hbal : Balanced cfg lb) (hs : Settled lb)
    (he : lb.localEvents.lookup id = some e) (helig : eligible now e = true)
    (hown : ∀ id' e', lb.localEvents.lookup id' = some e' → eligible now e' = true → id' = id)
    {base : Slot} (hready : max e.readySlot (slotOf now) = base) (hearliest : e.earliestSlot = base)
    (hbase : base + wSearch < 2 ^ 64)
    (hroom : ∀ u, base ≤ u → u < u64 (base + e.span) → hasRoom cfg lb e u = true) :
    CommittedTo (fastControlPath cfg sort now lb) id base := by
  generalize hlb₁ : lb.modifyAll (fun e =>
    if eligible now e then { e with prio := priority cfg alphaAge e } else e) = lb₁
  obtain ⟨hbal₁, hs₁, hprio⟩ := prioritize_spec hbal hs hlb₁
  have hown₁ : ∀ id' e', lb₁.localEvents.lookup id' = some e' → eligible now e' = true →
      id' = id := by
    intro id' e' he' helig'
    obtain ⟨e₀, he₀, hp⟩ := hprio.lookup he'
    exact hown id' e₀ he₀ (hp.eligible ▸ helig')
  obtain ⟨e₁, he₁, hp⟩ := hprio.lookup_of he
  have horder : sort.run (lb₁.events.filter (eligible now)) = [e₁] :=
    order_alone hbal₁ hs₁ he₁ (hp.eligible.trans helig) hown₁
  obtain ⟨prio, rfl, -⟩ := hp
  have hfound : findSlot cfg (slotOf now) lb₁ { e with prio := prio } = some base := by
    unfold findSlot
    simp only [hready, hearliest, lt_irrefl, and_false, if_false]
    refine search_base hbase fun u hu hu' => ?_
    subst hlb₁
    exact hroom u hu hu'
  have hplaced : (placed cfg lb₁ { e with prio := prio } base).localEvents.lookup
      id = some { e with prio := prio, start := some base } := by
    rw [localEvents_placed, lookup_mapVal, he₁, Option.map_some, if_pos (hbal.keyed id e he).symm]
  generalize hlb₂ : placed cfg lb₁ { e with prio := prio } base = lb₂
    at hplaced
  obtain ⟨events, heq, hcommits⟩ := foldl_commitEvent_times
    (commits sort lb₂ [(base, { e with prio := prio })]) lb₂
  have hpath : fastControlPath cfg sort now lb = { lb₂ with localEvents := events } := by
    rw [← heq, ← hlb₂, fastControlPath]
    simp only [hlb₁, horder, foldl_cons, foldl_nil, placeEvent, hfound, nil_append]
    rfl
  obtain ⟨e', he', hcommit⟩ := hcommits.lookup_of hplaced
  rw [hpath]
  refine ⟨e', he', ?_⟩
  rcases hcommit with ⟨-, hno⟩ | ⟨t, -, rfl⟩
  · refine absurd (mem_commits.mpr ?_) hno
    exact mem_map.mpr ⟨_, mem_singleton_self _, hbal.keyed id e he⟩
  · exact ⟨rfl, rfl⟩

theorem foldl_update_self (f : LeafBroker → LeafBroker) (hl : l.Nodup)
    (brokers : Fin n → LeafBroker) (i : Fin n) :
    l.foldl (fun brokers i => update brokers i (f (brokers i))) brokers i =
      if i ∈ l then f (brokers i) else brokers i := by
  induction l generalizing brokers with
  | nil => rfl
  | cons j l ih =>
    obtain ⟨hj, hl⟩ := nodup_cons.mp hl
    rw [foldl_cons, ih hl]
    rcases eq_or_ne i j with rfl | hne
    · rw [if_neg hj, update_self, if_pos mem_cons_self]
    · rw [update_of_ne hne]
      simp only [mem_cons, hne, false_or]

/-- No other event can take capacity from `e` in an epoch at `now`: none of its
leaf, and none of another leaf with a common destination, is eligible. -/
structure Alone (now : Time) (brokers : Fin n → LeafBroker) (i : Fin n) (id : EventId)
    (e : LocalEvent) : Prop where
  own : ∀ id' e', (brokers i).localEvents.lookup id' = some e' → eligible now e' = true → id' = id
  apart : ∀ j, j ≠ i → ∀ id' e', (brokers j).localEvents.lookup id' = some e' →
    eligible now e' = true → ∀ d ∈ e.foot, d ∉ e'.foot

/-- The ledgers of an event have nothing reserved or granted from `base` on. -/
structure Unloaded (cfg : Config) (brokers : Fin n → LeafBroker) (i : Fin n) (e : LocalEvent)
    (base : Slot) : Prop where
  src : ∀ u, base ≤ u →
    getFree (brokers i).srcFree u cfg.capacityPerSlot = cfg.capacityPerSlot
  dst : ∀ d : Fin n, d.val ∈ e.foot → ∀ u, base ≤ u →
    getFree (brokers d).dstFree u cfg.capacityPerSlot = cfg.capacityPerSlot

/-- An epoch commits an event that is alone, asks for no more than a slot has, and
finds its ledgers unloaded. -/
theorem onEpochTimer_alone {st : State n} (hled : Ledger cfg st.brokers)
    (he : (st.brokers i).localEvents.lookup id = some e) (helig : eligible now e = true)
    (hdest : ∀ d ∈ e.foot, d < n) (hsrcReq : e.srcReq ≤ cfg.capacityPerSlot)
    (hfoot : ∀ d amount, e.foot.lookup d = some amount → amount ≤ cfg.capacityPerSlot)
    (hbase : max e.readySlot (slotOf now) + wSearch < 2 ^ 64)
    (hfree : Unloaded cfg st.brokers i e (max e.readySlot (slotOf now)))
    (halone : Alone now st.brokers i id e) :
    CommittedTo ((onEpochTimer cfg sort now st).brokers i) id (max e.readySlot (slotOf now)) := by
  have hled₁ : Ledger cfg ((List.finRange n).foldl (requestPhase cfg sort now)
      (st.brokers, fun _ => [])).1 :=
    foldl_keeps (P := fun p : (Fin n → LeafBroker) × DestQueues n => Ledger cfg p.1)
      (fun p i hp => requestPhase_ledger hp i) _ hled
  have hrequests := requestPhases_eq cfg sort now (nodup_finRange n) st.brokers fun _ => []
  simp only [mem_finRange, if_true, nil_append] at hrequests
  generalize hqueues : (fun d => (List.finRange n).flatMap fun j =>
    (requestsOf cfg sort now j (st.brokers j)).2 d) = queues at hrequests
  generalize hbrokers : (fun j => (requestsOf cfg sort now j (st.brokers j)).1) = brokers
    at hrequests
  rw [hrequests] at hled₁
  -- the request of the event, in the queues of its destinations
  obtain ⟨hlook, hreqs⟩ := requestsOf_alone sort i (hled.balanced i) (hled.settled i) he
    helig halone.own hbase fun u hu => (hfree.src u hu).symm ▸ hsrcReq
  have hload := (observed_observe cfg now id e).1
  have hready := readySlot_observe cfg now e
  have helig' := (eligible_observe cfg now e).trans helig
  generalize observe cfg now e = e₁ at hlook hreqs hload hready helig'
  have hqueue : ∀ d : Fin n, d.val ∈ e.foot →
      queues d = requestTo i e₁ (max e.readySlot (slotOf now)) d := by
    intro d hd
    rw [← hqueues, ← hreqs]
    exact queues_alone fun j hj => requestsOf_nil (hled.balanced j) (hled.settled j)
      fun id' e' he' helig' => halone.apart j hj id' e' he' helig' d hd
  -- the ledgers before the grants
  have hdst : ∀ d, (brokers d).dstFree = (st.brokers d).dstFree := fun d => by
    rw [← hbrokers]
    exact (requestsOf_ledgers d (hled.balanced d)).2
  have hown : ∀ id' e', (brokers i).localEvents.lookup id' = some e' → eligible now e' = true →
      id' = id := by
    intro id' e' he' hel
    have hevents := requestPhase_events sort now (fun _ => []) hled i
    rw [requestPhase_self] at hevents
    rw [← hbrokers] at he'
    obtain ⟨e₀, he₀, hreq⟩ := hevents.lookup he'
    exact halone.own id' e₀ he₀ (hreq.eligible ▸ hel)
  obtain ⟨hled₂, hevents₂, hsrc₂, -⟩ := foldl_grantQuota_frame (l := List.finRange n) hled₁ queues i
  have hepoch : (onEpochTimer cfg sort now st).brokers i = fastControlPath cfg sort now
      ((List.finRange n).foldl (grantQuota cfg queues) brokers i) := by
    simp only [onEpochTimer, hrequests]
    rw [foldl_update_self _ (nodup_finRange n), if_pos (mem_finRange i)]
  rw [hepoch]
  refine fastControlPath_alone sort (hled₂.balanced i) (hled₂.settled i)
    (e := { e₁ with earliestSlot := max e.readySlot (slotOf now) }) ?_ helig'
    (fun id' e' he' => hown id' e' (hevents₂ ▸ he')) (congrArg (max · (slotOf now)) hready) rfl hbase
    fun u hu hu' => hasRoom_iff.mpr ⟨?_, fun d amount hamount => ?_⟩
  · rw [hevents₂, ← hbrokers]
    exact hlook
  · rw [hsrc₂, ← hbrokers, (requestsOf_ledgers i (hled.balanced i)).1, hfree.src u hu]
    exact hload.srcReq.trans_le hsrcReq
  · rw [show e₁.foot = e.foot from hload.foot] at hamount
    have hmem : d ∈ e.foot := AList.lookup_isSome.mp (by rw [hamount]; rfl)
    have hone : queues d = [⟨e₁.eventId, i, max e.readySlot (slotOf now), e₁.span, amount, e₁.b,
        e₁.prio, e₁.tPred⟩] := by
      rw [hqueue ⟨d, hdest d hmem⟩ hmem, requestTo, hload.foot, hamount, Option.elim_some]
    refine foldl_grantQuota_alone hled₁ (d := ⟨d, hdest d hmem⟩) hone rfl hbase (fun u hu => ?_)
      hu hu'
    rw [hdst, hfree.dst ⟨d, hdest d hmem⟩ hmem u hu]
    exact hfoot d amount hamount

end

/-- In every reachable state at its epoch timer, an event that is not committed
and due within `m_Helig`, with destinations that exist, is committed to the
window at `max(readySlot, current slot)` when its ledgers are unloaded from there
on and it is alone. Nothing of this may wrap: the capacity of a slot, the bytes
of the event, and the slots of the search. -/
theorem unloaded_commit {k : Nat} (k_pos : 0 < k) {numLeafs : Nat} {mode : Mode}
    {scaleFactor : Rat} (hscale : 0 < scaleFactor) (hrange : 125000 * scaleFactor * k < 2 ^ 32)
    {w : World (construct k k_pos numLeafs mode scaleFactor)} (h : Reachable _ sort w)
    (htimer : w.state.timer = some now) {i : Fin numLeafs} {id : EventId} {e : LocalEvent}
    (he : (w.state.brokers i).localEvents.lookup id = some e) (hcomm : e.committed = false)
    (hdue : e.tPred - now ≤ hElig) (hdest : ∀ d ∈ e.foot, d < numLeafs)
    (hbytes : total (fun _ bytes => bytes) e.bytesByLeaf +
      (construct k k_pos numLeafs mode scaleFactor).rSlot ≤ 2 ^ 32)
    (hbase : max e.readySlot (slotOf now) + wSearch < 2 ^ 64)
    (hfree : Unloaded (construct k k_pos numLeafs mode scaleFactor) w.state.brokers i e
      (max e.readySlot (slotOf now)))
    (halone : Alone now w.state.brokers i id e) :
    ∃ w', Step _ sort w (.epoch now) w' ∧
      CommittedTo (w'.state.brokers i) id (max e.readySlot (slotOf now)) := by
  have hcap := rSlot_le_capacityPerSlot k_pos numLeafs mode hscale hrange
  obtain ⟨hsrcReq, hfoot⟩ := (reachable_shaped h i id e he).load_le hbytes
  have helig : eligible now e = true := by
    unfold eligible
    rw [hcomm, decide_eq_true hdue]
    rfl
  exact ⟨_, .epoch htimer, onEpochTimer_alone (reachable_ledger h) he helig hdest
    (hsrcReq.trans hcap) (fun d amount hamount => (hfoot d amount hamount).trans hcap) hbase hfree
    halone⟩

/-! ## 5. Runs of one event and of two -/

theorem free_of_idle {n : Nat} {brokers : Fin n → LeafBroker} (hled : Ledger cfg brokers)
    (hshare : ∀ s d u, share (brokers s) d u = 0)
    (hstart : ∀ s, ∀ e ∈ (brokers s).events, e.start = none) (s : Fin n) (u : Slot) :
    getFree (brokers s).srcFree u cfg.capacityPerSlot = cfg.capacityPerSlot ∧
    getFree (brokers s).dstFree u cfg.capacityPerSlot = cfg.capacityPerSlot ∧
    ∀ d, getFree ((brokers s).grantedQuota d) u 0 = 0 := by
  refine ⟨?_, ?_, fun d => (Nat.add_eq_zero_iff.mp (hshare s d u)).1⟩
  · have hheld : heldSrc (brokers s) u = 0 := by
      refine (total_congr (g := fun _ _ => 0) fun id e he => if_neg ?_).trans (by simp [total])
      rintro ⟨start, hs, -⟩
      rw [hstart s e (mem_map.mpr ⟨⟨id, e⟩, mem_entries_iff.mpr he, rfl⟩)] at hs
      cases hs
    have hsrc := (hled.balanced s).src u
    rwa [hheld, add_zero] at hsrc
  · have hdst := hled.dst s u
    simp only [hshare, Finset.sum_const_zero, add_zero] at hdst
    exact hdst

theorem share_reported (rank : Rank) (task : MoeTask) {st : State rivalsCfg.numLeafs}
    (hled : Ledger rivalsCfg st.brokers) (hrank : u32 (rank / rivalsCfg.k) < rivalsCfg.numLeafs)
    (hshare : ∀ s d u, share (st.brokers s) d u = 0) :
    Ledger rivalsCfg (reported rank task st).brokers ∧
    ∀ s d u, share ((reported rank task st).brokers s) d u = 0 := by
  obtain ⟨ret, hcall, -⟩ := checkAdmission_reported task st hrank
  exact ⟨checkAdmission_ledger hled hcall, fun s d u =>
    (checkAdmission_share hled hcall s d u).trans (hshare s d u)⟩

theorem idle_init : Ledger rivalsCfg (({} : State rivalsCfg.numLeafs).brokers) ∧
    ∀ s d u, share (({} : State rivalsCfg.numLeafs).brokers s) d u = 0 :=
  ⟨ledger_init rivalsCfg, fun _ _ _ => rfl⟩

/-- The event of rank 0, alone, gets slot 100 in the first epoch. -/
theorem unloaded_commit_wide :
    ∃ w', Step rivalsCfg rivalsSort ⟨reported 0 wide {}, 0⟩ (.epoch 1000000) w' ∧
      CommittedTo (w'.state.brokers ⟨0, by decide⟩) (eventIdOf 0 wide) 100 := by
  obtain ⟨hrun, htimer⟩ : Run rivalsCfg rivalsSort (fun _ => True) {} ⟨reported 0 wide {}, 0⟩ ∧
      (reported 0 wide {}).timer = some 1000000 :=
    run_reported .refl (le_refl _) (by decide) trivial
  obtain ⟨hled, hshare⟩ := share_reported 0 wide idle_init.1 (by decide) idle_init.2
  have hfree := free_of_idle hled hshare (by decide +kernel)
  have hevent : (((reported 0 wide {}).brokers ⟨0, by decide⟩).localEvents.lookup
      (eventIdOf 0 wide)).map (fun e => (e.committed, e.tPred, e.foot.keys,
        total (fun _ bytes => bytes) e.bytesByLeaf, e.readySlot)) =
      some (false, 0, [1, 2], 10, 0) := by decide +kernel
  obtain ⟨e, he, heq⟩ := Option.map_eq_some_iff.mp hevent
  simp only [Prod.mk.injEq] at heq
  obtain ⟨hcomm, hpred, hkeys, hbytes, hready⟩ := heq
  have hids : ∀ s, ((reported 0 wide {}).brokers s).localEvents.keys =
      if s.val = 0 then [eventIdOf 0 wide] else [] := by decide +kernel
  have hbase : max e.readySlot (slotOf 1000000) = 100 := by rw [hready]; decide
  have hdest : ∀ d ∈ e.foot, d < 3 := fun d hd => by
    rw [AList.mem_keys, hkeys] at hd
    revert d
    decide
  have halone : Alone 1000000 (reported 0 wide {}).brokers ⟨0, by decide⟩ (eventIdOf 0 wide) e := by
    have hmem : ∀ s id e', ((reported 0 wide {}).brokers s).localEvents.lookup id = some e' →
        id ∈ if s.val = 0 then [eventIdOf 0 wide] else [] := fun s id e' he' => by
      rw [← hids s, ← AList.mem_keys]
      exact AList.lookup_isSome.mp (by rw [he']; rfl)
    refine ⟨fun id e' he' _ => List.mem_singleton.mp (hmem _ id e' he'), fun j hj id e' he' _ => ?_⟩
    have hnot := hmem j id e' he'
    rw [if_neg fun h => hj (Fin.ext h)] at hnot
    exact absurd hnot List.not_mem_nil
  have hcommit := unloaded_commit (by decide) (by norm_num) (by norm_num) (Run.reachable hrun .init)
    htimer he hcomm (by rw [hpred]; decide) hdest (by rw [hbytes]; decide +kernel)
    (by rw [hbase]; decide) ⟨fun u _ => (hfree _ u).1, fun d _ u _ => (hfree d u).2.1⟩ halone
  rwa [hbase] at hcommit

/-- With rank 2 reporting before the first epoch too, the ledgers are as free, but
slot 100 of leaf 1 goes to the smaller event. -/
theorem unloaded_rivals : ∃ (w : World rivalsCfg) (now : Time) (i : Fin rivalsCfg.numLeafs)
    (id : EventId) (e : LocalEvent), Reachable rivalsCfg rivalsSort w ∧ w.state.timer = some now ∧
    (∀ s u, getFree (w.state.brokers s).srcFree u rivalsCfg.capacityPerSlot =
        rivalsCfg.capacityPerSlot ∧
      getFree (w.state.brokers s).dstFree u rivalsCfg.capacityPerSlot =
        rivalsCfg.capacityPerSlot ∧
      ∀ d, getFree ((w.state.brokers s).grantedQuota d) u 0 = 0) ∧
    (w.state.brokers i).localEvents.lookup id = some e ∧ e.committed = false ∧
    e.tPred - now ≤ hElig ∧ (∀ d ∈ e.foot, d < rivalsCfg.numLeafs) ∧
    ¬ ∃ w', Step rivalsCfg rivalsSort w (.epoch now) w' ∧
      CommittedTo (w'.state.brokers i) id (max e.readySlot (slotOf now)) := by
  obtain ⟨hrun, htimer⟩ : Run rivalsCfg rivalsSort (fun _ => True) {} ⟨reported 0 wide {}, 0⟩ ∧
      (reported 0 wide {}).timer = some 1000000 :=
    run_reported .refl (le_refl _) (by decide) trivial
  obtain ⟨hrun', htimer'⟩ : Run rivalsCfg rivalsSort (fun _ => True) {}
      ⟨reported 2 narrow (reported 0 wide {}), 0⟩ ∧
      (reported 2 narrow (reported 0 wide {})).timer =
        some ((reported 0 wide {}).timer.getD epochLength) :=
    run_reported hrun (by rw [htimer]; decide) (by decide) trivial
  rw [htimer] at htimer'
  obtain ⟨hled, hshare⟩ := share_reported 0 wide idle_init.1 (by decide) idle_init.2
  obtain ⟨hled', hshare'⟩ := share_reported 2 narrow hled (by decide) hshare
  have hevent : (((reported 2 narrow (reported 0 wide {})).brokers ⟨0, by decide⟩).localEvents.lookup
      (eventIdOf 0 wide)).map (fun e => (e.committed, e.tPred, e.foot.keys)) =
      some (false, 0, [1, 2]) := by decide +kernel
  obtain ⟨e, he, heq⟩ := Option.map_eq_some_iff.mp hevent
  simp only [Prod.mk.injEq] at heq
  obtain ⟨hcomm, hpred, hkeys⟩ := heq
  refine ⟨_, 1000000, ⟨0, by decide⟩, _, e, Run.reachable hrun' .init, htimer',
    free_of_idle hled' hshare' (by decide +kernel), he, hcomm, by rw [hpred]; decide, fun d hd => ?_, ?_⟩
  · rw [AList.mem_keys, hkeys] at hd
    revert d
    decide
  · rintro ⟨w', hstep, e', he', hcomm', -⟩
    cases hstep
    have hlater : (((onEpochTimer rivalsCfg rivalsSort 1000000
        (reported 2 narrow (reported 0 wide {}))).brokers ⟨0, by decide⟩).localEvents.lookup
        (eventIdOf 0 wide)).map (·.committed) = some false := by decide +kernel
    rw [he', Option.map_some, hcomm'] at hlater
    cases hlater

end MoeJit.DistributedAging
