import MoeJit.Moe.DistributedAging
import Mathlib.Algebra.BigOperators.Fin
import Mathlib.Algebra.Order.BigOperators.Group.Finset

/-!
# The ledgers of the brokers

In every reachable state of `DistributedAgingScheduler` the capacity of a slot
is accounted for at both ends. A destination has what is left to grant, the
quota that its source leaves still hold, and the footprints of the events they
have committed; a source has what is free and the bytes of its committed events.
An event counts in the slots that the loops over its window come to.

`share` is what a source leaf has of a destination: quota and commitments
together. `fastControlPath` turns one into the other and leaves the sum alone;
only `grantQuota` moves capacity between leaves.
-/

namespace MoeJit.DistributedAging

open Words StdSort AssocMap FirstFit List Function
open Option (elim_none elim_some getD_some map_some mem_def)

/-! ## 1. Dictionaries -/

theorem getFree_takeFree (dict : Dict) (s u : Slot) (cap amount : Nat) :
    getFree (takeFree dict s cap amount) u cap =
      if u = s then sub32 (getFree dict s cap) amount else getFree dict u cap := by
  simp only [getFree, takeFree, update_apply]
  split
  · rw [getD_some]
  · rfl

/-- Taking an amount that is there from some slots. -/
theorem take_spec {cap amount : Nat} {l : List Slot} (hl : l.Nodup) {dict : Dict}
    (hlt : ∀ u, getFree dict u cap < 2 ^ 32) (hroom : ∀ u ∈ l, amount ≤ getFree dict u cap) :
    (∀ u, getFree (l.foldl (fun dict u => takeFree dict u cap amount) dict) u cap +
      (if u ∈ l then amount else 0) = getFree dict u cap) ∧
    (l.foldl (fun dict u => takeFree dict u cap amount) dict).wrapped = dict.wrapped := by
  induction l generalizing dict with
  | nil => simp
  | cons s l ih =>
    obtain ⟨hs, hl⟩ := nodup_cons.mp hl
    obtain ⟨hroom₀, hroom⟩ := forall_mem_cons.mp hroom
    have hfree : ∀ u, getFree (takeFree dict s cap amount) u cap =
        if u = s then getFree dict s cap - amount else getFree dict u cap := fun u => by
      rw [getFree_takeFree, sub32_of_le hroom₀ (hlt s)]
    have hother : ∀ u ∈ l, u ≠ s := fun u hu heq => hs (heq ▸ hu)
    have hlt' : ∀ u, getFree (takeFree dict s cap amount) u cap < 2 ^ 32 := fun u => by
      rw [hfree]
      split
      · exact (Nat.sub_le _ _).trans_lt (hlt s)
      · exact hlt u
    have hroom' : ∀ u ∈ l, amount ≤ getFree (takeFree dict s cap amount) u cap := fun u hu => by
      rw [hfree, if_neg (hother u hu)]
      exact hroom u hu
    obtain ⟨hval, hwrap⟩ := ih hl hlt' hroom'
    refine ⟨fun u => ?_, ?_⟩
    · have hu := hval u
      rw [hfree] at hu
      rw [foldl_cons]
      by_cases heq : u = s
      · subst heq
        rw [if_neg hs, if_pos rfl] at hu
        rw [if_pos mem_cons_self]
        omega
      · rw [if_neg heq] at hu
        simpa only [mem_cons, heq, false_or] using hu
    · rw [foldl_cons, hwrap, takeFree, decide_eq_false (not_lt.mpr hroom₀), Bool.or_false]

/-! ## 2. Accounts of a leaf -/

/-- Slot `u` is in the window that an event was given. -/
def LocalEvent.Holds (e : LocalEvent) (u : Slot) : Prop := ∃ s ∈ e.start, u ∈ e.window s

instance (e : LocalEvent) (u : Slot) : Decidable (e.Holds u) := by
  unfold LocalEvent.Holds
  infer_instance

/-- What an event takes of destination `d` in a slot. -/
def LocalEvent.footAt (e : LocalEvent) (d : Leaf) : Nat := (e.foot.lookup d).getD 0

/-- What the events of a leaf hold of its own slot `u`. -/
def heldSrc (lb : LeafBroker) (u : Slot) : Nat :=
  total (fun _ e => if e.Holds u then e.srcReq else 0) lb.localEvents

/-- What the events of a leaf hold of slot `u` of destination `d`. -/
def heldFoot (lb : LeafBroker) (d : Leaf) (u : Slot) : Nat :=
  total (fun _ e => if e.Holds u then e.footAt d else 0) lb.localEvents

/-- What a leaf has of slot `u` of destination `d`, as quota or held. -/
def share (lb : LeafBroker) (d : Leaf) (u : Slot) : Nat :=
  getFree (lb.grantedQuota d) u 0 + heldFoot lb d u

/-- The accounts of a source leaf balance. -/
structure Balanced (cfg : Config) (lb : LeafBroker) : Prop where
  src : ∀ u, getFree lb.srcFree u cfg.capacityPerSlot + heldSrc lb u = cfg.capacityPerSlot
  src_wrapped : lb.srcFree.wrapped = false
  quota_lt : ∀ d u, getFree (lb.grantedQuota d) u 0 < 2 ^ 32
  quota_wrapped : ∀ d, (lb.grantedQuota d).wrapped = false
  keyed : ∀ id e, lb.localEvents.lookup id = some e → e.eventId = id

/-- Exactly the committed events have a window. -/
def Settled (lb : LeafBroker) : Prop :=
  ∀ id e, lb.localEvents.lookup id = some e → (e.start.isSome = true ↔ e.committed = true)

variable {cfg : Config} {lb lb' : LeafBroker} {e e' : LocalEvent}
  {R : EventId → LocalEvent → LocalEvent → Prop} {s slot : Slot} {order : List LocalEvent}
  {id : EventId} {buckets buckets' : List (Slot × LocalEvent)} {sort : Sorter EventLess}
  {now : Time} {rank : Rank} {task : MoeTask} {st st' : State cfg.numLeafs} {ret : Bool}
  {P : Input → Prop}

theorem Balanced.src_lt (h : Balanced cfg lb) (u : Slot) :
    getFree lb.srcFree u cfg.capacityPerSlot < 2 ^ 32 :=
  (Nat.le.intro (h.src u)).trans_lt cfg.capacityPerSlot_lt

/-- A change of an event that leaves its load and its window alone. -/
structure SameLoad (e e' : LocalEvent) : Prop where
  eventId : e'.eventId = e.eventId
  start : e'.start = e.start
  b : e'.b = e.b
  span : e'.span = e.span
  foot : e'.foot = e.foot

theorem SameLoad.refl (e : LocalEvent) : SameLoad e e := ⟨rfl, rfl, rfl, rfl, rfl⟩

theorem SameLoad.trans {e'' : LocalEvent} (h : SameLoad e e') (h' : SameLoad e' e'') :
    SameLoad e e'' :=
  ⟨h'.eventId.trans h.eventId, h'.start.trans h.start, h'.b.trans h.b, h'.span.trans h.span,
    h'.foot.trans h.foot⟩

theorem SameLoad.holds_iff (h : SameLoad e e') (u : Slot) : e'.Holds u ↔ e.Holds u := by
  simp only [LocalEvent.Holds, LocalEvent.window, h.start, h.span]

theorem SameLoad.srcReq (h : SameLoad e e') : e'.srcReq = e.srcReq := by
  rw [LocalEvent.srcReq, LocalEvent.srcReq, h.b, h.span]

theorem SameLoad.footAt (h : SameLoad e e') (d : Leaf) : e'.footAt d = e.footAt d := by
  rw [LocalEvent.footAt, LocalEvent.footAt, h.foot]

/-- Changes of events that leave their loads alone leave the accounts alone. -/
theorem accounts_of_changed {l : LeafBroker} (h : Changed R lb.localEvents l.localEvents)
    (hR : ∀ id e e', R id e e' → SameLoad e e') :
    (∀ u, heldSrc l u = heldSrc lb u) ∧ ∀ d u, heldFoot l d u = heldFoot lb d u := by
  refine ⟨fun u => h.total_eq fun id e e' hr => ?_, fun d u => h.total_eq fun id e e' hr => ?_⟩
  · simp only [(hR id e e' hr).holds_iff, (hR id e e' hr).srcReq]
  · simp only [(hR id e e' hr).holds_iff, (hR id e e' hr).footAt]

theorem Balanced.changed (h : Balanced cfg lb) {events : AList fun _ : EventId => LocalEvent}
    (hevents : Changed R lb.localEvents events) (hR : ∀ id e e', R id e e' → SameLoad e e') :
    Balanced cfg { lb with localEvents := events } where
  src u := by
    rw [(accounts_of_changed (l := { lb with localEvents := events }) hevents hR).1 u]
    exact h.src u
  src_wrapped := h.src_wrapped
  quota_lt := h.quota_lt
  quota_wrapped := h.quota_wrapped
  keyed id e' he' := by
    obtain ⟨e, he, hr⟩ := hevents.lookup he'
    rw [(hR id e e' hr).eventId]
    exact h.keyed id e he

/-! ## 3. One placement -/

theorem foldl_reserveSlot (cfg : Config) (e : LocalEvent) (l : List Slot) (lb : LeafBroker) :
    l.foldl (reserveSlot cfg e) lb = { lb with
      srcFree := l.foldl (fun dict u => takeFree dict u cfg.capacityPerSlot e.srcReq) lb.srcFree
      grantedQuota := fun d => (e.foot.lookup d).elim (lb.grantedQuota d) fun amount =>
        l.foldl (fun dict u => takeFree dict u 0 amount) (lb.grantedQuota d) } := by
  induction l generalizing lb with
  | nil =>
    have hquota : (fun d => (e.foot.lookup d).elim (lb.grantedQuota d) fun _ =>
        lb.grantedQuota d) = lb.grantedQuota := funext fun d => by
      cases e.foot.lookup d with
      | none => rw [elim_none]
      | some amount => rw [elim_some]
    simp only [foldl_nil, hquota]
  | cons u l ih =>
    rw [foldl_cons, ih]
    simp only [reserveSlot, foldl_cons, LeafBroker.mk.injEq, true_and, and_true]
    funext d
    rw [foldl_update e.foot (fun amount dict => takeFree dict u 0 amount) lb.grantedQuota d]
    cases e.foot.lookup d with
    | none => rw [elim_none, elim_none, elim_none]
    | some amount => rw [elim_some, elim_some, elim_some]

theorem hasRoom_iff {u : Slot} :
    hasRoom cfg lb e u = true ↔ e.srcReq ≤ getFree lb.srcFree u cfg.capacityPerSlot ∧
      ∀ d amount, e.foot.lookup d = some amount → amount ≤ getFree (lb.grantedQuota d) u 0 := by
  rw [hasRoom, Bool.and_eq_true, decide_eq_true_eq, all_eq_true]
  refine and_congr_right fun _ => ⟨fun h d amount hlook => ?_, fun h kv hkv => ?_⟩
  · exact of_decide_eq_true (h ⟨d, amount⟩ (mem_entries_iff.mpr hlook))
  · exact decide_eq_true (h kv.1 kv.2 (mem_entries_iff.mp hkv))

theorem reserve_spec {l : List Slot} (hl : l.Nodup) (h : Balanced cfg lb)
    (hroom : ∀ u ∈ l, hasRoom cfg lb e u = true) :
    (∀ u, getFree (l.foldl (reserveSlot cfg e) lb).srcFree u cfg.capacityPerSlot +
      (if u ∈ l then e.srcReq else 0) = getFree lb.srcFree u cfg.capacityPerSlot) ∧
    (∀ d u, getFree ((l.foldl (reserveSlot cfg e) lb).grantedQuota d) u 0 +
      (if u ∈ l then e.footAt d else 0) = getFree (lb.grantedQuota d) u 0) ∧
    (l.foldl (reserveSlot cfg e) lb).srcFree.wrapped = false ∧
    ∀ d, ((l.foldl (reserveSlot cfg e) lb).grantedQuota d).wrapped = false := by
  rw [foldl_reserveSlot]
  obtain ⟨hsrc, hsrcw⟩ := take_spec hl h.src_lt fun u hu => (hasRoom_iff.mp (hroom u hu)).1
  have hquota : ∀ d amount, e.foot.lookup d = some amount → _ := fun d amount hlook =>
    @take_spec 0 amount l hl (lb.grantedQuota d) (h.quota_lt d) fun u hu =>
      (hasRoom_iff.mp (hroom u hu)).2 d amount hlook
  refine ⟨hsrc, fun d u => ?_, hsrcw.trans h.src_wrapped, fun d => ?_⟩
  · simp only [LocalEvent.footAt]
    cases hlook : e.foot.lookup d with
    | none => simp
    | some amount => exact (hquota d amount hlook).1 u
  · simp only
    cases hlook : e.foot.lookup d with
    | none => exact h.quota_wrapped d
    | some amount => exact (hquota d amount hlook).2.trans (h.quota_wrapped d)

/-- What an event that is given a window adds to a sum over the events. -/
theorem total_start {events : AList fun _ : EventId => LocalEvent} (load : LocalEvent → Nat)
    (hload : ∀ e' start, load { e' with start := start } = load e')
    (hlook : events.lookup e.eventId = some e) (hnone : e.start = none) (u : Slot) :
    total (fun _ e' => if e'.Holds u then load e' else 0)
      (mapVal (fun id e' => if id = e.eventId then { e' with start := some s } else e') events) =
    total (fun _ e' => if e'.Holds u then load e' else 0) events +
      if u ∈ e.window s then load e else 0 := by
  rw [total_mapVal]
  have hsum := total_of_eq_of_ne (k := e.eventId) (v := e) hlook
    (f := fun id e' => if (if id = e.eventId then { e' with start := some s } else e').Holds u then
      load (if id = e.eventId then { e' with start := some s } else e') else 0)
    (g := fun _ e' => if e'.Holds u then load e' else 0)
    fun id e' hne _ => by simp only [if_neg hne]
  have hbefore : ¬ e.Holds u := fun ⟨_, hs, _⟩ => by
    rw [hnone] at hs
    cases hs
  have hafter : ({ e with start := some s } : LocalEvent).Holds u ↔ u ∈ e.window s :=
    ⟨fun ⟨_, hs, hu⟩ => Option.some.inj hs ▸ hu, fun hu => ⟨s, rfl, hu⟩⟩
  simp only [if_neg hbefore, if_true, hafter, hload, add_zero] at hsum
  exact hsum

theorem findSlot_spec (h : findSlot cfg slot lb e = some s) :
    e.readySlot ≤ s ∧ slot ≤ s ∧ ∀ u ∈ e.window s, hasRoom cfg lb e u = true := by
  unfold findSlot at h
  simp only at h
  split at h
  · next hlater =>
    obtain ⟨hbase, -, hroom⟩ := search_spec h
    have hle := (le_of_lt hlater.2).trans hbase
    exact ⟨(Nat.le_max_left _ _).trans hle, (Nat.le_max_right _ _).trans hle, hroom⟩
  · obtain ⟨hbase, -, hroom⟩ := search_spec h
    exact ⟨(Nat.le_max_left _ _).trans hbase, (Nat.le_max_right _ _).trans hbase, hroom⟩

/-- An event that finds a slot: charged, and with a window. -/
def placed (cfg : Config) (lb : LeafBroker) (e : LocalEvent) (s : Slot) : LeafBroker :=
  ((e.window s).foldl (reserveSlot cfg e) lb).modify e.eventId fun e' =>
    { e' with start := some s }

theorem localEvents_placed (cfg : Config) (lb : LeafBroker) (e : LocalEvent) (s : Slot) :
    (placed cfg lb e s).localEvents = mapVal (fun id e' =>
      if id = e.eventId then { e' with start := some s } else e') lb.localEvents := by
  rw [placed, LeafBroker.modify, foldl_reserveSlot]

theorem placed_spec (h : Balanced cfg lb) (hlook : lb.localEvents.lookup e.eventId = some e)
    (hnone : e.start = none) (hfound : findSlot cfg slot lb e = some s) :
    Balanced cfg (placed cfg lb e s) ∧ (∀ d u, share (placed cfg lb e s) d u = share lb d u) ∧
    (placed cfg lb e s).dstFree = lb.dstFree := by
  obtain ⟨hsrc', hquota', hsrcw, hquotaw⟩ :=
    reserve_spec (nodup_window _ _) h (findSlot_spec hfound).2.2
  have hsrc : ∀ u, getFree (placed cfg lb e s).srcFree u cfg.capacityPerSlot +
      (if u ∈ e.window s then e.srcReq else 0) = getFree lb.srcFree u cfg.capacityPerSlot := hsrc'
  have hquota : ∀ d u, getFree ((placed cfg lb e s).grantedQuota d) u 0 +
      (if u ∈ e.window s then e.footAt d else 0) = getFree (lb.grantedQuota d) u 0 := hquota'
  have hheldSrc : ∀ u, heldSrc (placed cfg lb e s) u =
      heldSrc lb u + if u ∈ e.window s then e.srcReq else 0 := fun u => by
    rw [heldSrc, localEvents_placed]
    exact total_start LocalEvent.srcReq (fun _ _ => rfl) hlook hnone u
  have hheldFoot : ∀ d u, heldFoot (placed cfg lb e s) d u =
      heldFoot lb d u + if u ∈ e.window s then e.footAt d else 0 := fun d u => by
    rw [heldFoot, localEvents_placed]
    exact total_start (fun e' => e'.footAt d) (fun _ _ => rfl) hlook hnone u
  refine ⟨⟨fun u => ?_, hsrcw, fun d u => ?_, hquotaw, fun id e' he' => ?_⟩, fun d u => ?_, ?_⟩
  · have hbalance := h.src u
    rw [← hsrc u, Nat.add_right_comm, add_assoc] at hbalance
    rw [hheldSrc, hbalance]
  · exact (Nat.le.intro (hquota d u)).trans_lt (h.quota_lt d u)
  · rw [localEvents_placed, lookup_mapVal, Option.map_eq_some_iff] at he'
    obtain ⟨e₀, he₀, rfl⟩ := he'
    have hkey := h.keyed id e₀ he₀
    split <;> exact hkey
  · rw [share, hheldFoot, share, ← hquota d u, Nat.add_right_comm, add_assoc]
  · rw [placed, foldl_reserveSlot]
    rfl

/-! ## 4. FastControlPath -/

/-- What the loop over the eligible events does to an event: nothing, or it gives
it the slot of its bucket. -/
def PlacedAt (new : List (Slot × LocalEvent)) (id : EventId) (e e' : LocalEvent) : Prop :=
  (e' = e ∧ id ∉ new.map (·.2.eventId)) ∨
    ∃ s, e' = { e with start := some s } ∧ (s, e) ∈ new ∧ e.eventId = id

/-- The buckets hold events of the loop, each once, with a slot that was found
for it. -/
structure FoundIn (cfg : Config) (slot : Slot) (order : List LocalEvent)
    (new : List (Slot × LocalEvent)) : Prop where
  mem : ∀ p ∈ new, p.2 ∈ order
  found : ∀ p ∈ new, ∃ lb, findSlot cfg slot lb p.2 = some p.1
  nodup : (new.map (·.2.eventId)).Nodup

theorem FoundIn.id_mem {new : List (Slot × LocalEvent)} (h : FoundIn cfg slot order new)
    (hid : id ∈ new.map (·.2.eventId)) : id ∈ order.map (·.eventId) := by
  obtain ⟨p, hp, rfl⟩ := mem_map.mp hid
  exact mem_map_of_mem (h.mem p hp)

theorem foldl_placeEvent_events (hnodup : (order.map (·.eventId)).Nodup)
    (horder : ∀ e ∈ order, lb.localEvents.lookup e.eventId = some e)
    (hrun : order.foldl (placeEvent cfg slot) (lb, buckets) = (lb', buckets')) :
    ∃ new, buckets' = buckets ++ new ∧ FoundIn cfg slot order new ∧
      Changed (PlacedAt new) lb.localEvents lb'.localEvents := by
  induction order generalizing lb buckets with
  | nil =>
    cases hrun
    exact ⟨[], by simp, ⟨by simp, by simp, nodup_nil⟩, .refl fun id e _ => .inl ⟨rfl, by simp⟩⟩
  | cons e order ih =>
    rw [foldl_cons] at hrun
    obtain ⟨hnot, hnodup⟩ := nodup_cons.mp hnodup
    obtain ⟨hlook, horder⟩ := forall_mem_cons.mp horder
    cases hfound : findSlot cfg slot lb e with
    | none =>
      rw [placeEvent, hfound] at hrun
      obtain ⟨new, hnew, hin, hchanged⟩ := ih hnodup horder hrun
      exact ⟨new, hnew, ⟨fun p hp => mem_cons_of_mem e (hin.mem p hp), hin.found, hin.nodup⟩,
        hchanged⟩
    | some s =>
      have hstep : placeEvent cfg slot (lb, buckets) e =
          (placed cfg lb e s, buckets ++ [(s, e)]) := by
        rw [placeEvent, hfound]
        rfl
      rw [hstep] at hrun
      have horder' : ∀ e₁ ∈ order,
          (placed cfg lb e s).localEvents.lookup e₁.eventId = some e₁ := fun e₁ he₁ => by
        have hne : e₁.eventId ≠ e.eventId := fun heq => hnot (mem_map.mpr ⟨e₁, he₁, heq⟩)
        rw [localEvents_placed, lookup_mapVal, horder e₁ he₁, map_some, if_neg hne]
      obtain ⟨new, rfl, hin, hchanged⟩ := ih hnodup horder' hrun
      refine ⟨(s, e) :: new, by simp, ⟨?_, ?_, ?_⟩, ?_⟩
      · exact forall_mem_cons.mpr ⟨mem_cons_self, fun p hp => mem_cons_of_mem e (hin.mem p hp)⟩
      · exact forall_mem_cons.mpr ⟨⟨lb, hfound⟩, hin.found⟩
      · exact nodup_cons.mpr ⟨fun hmem => hnot (hin.id_mem hmem), hin.nodup⟩
      · rw [localEvents_placed] at hchanged
        refine (changed_mapVal (R := fun id e₀ e₁ => lb.localEvents.lookup id = some e₀ ∧
          e₁ = if id = e.eventId then { e₀ with start := some s } else e₀)
            fun _ _ hk => ⟨hk, rfl⟩).trans hchanged fun id e₀ e₁ e₂ h₁ h₂ => ?_
        obtain ⟨hlook₀, rfl⟩ := h₁
        rw [PlacedAt, map_cons, mem_cons]
        split at h₂
        · next hid =>
          subst hid
          obtain rfl : e = e₀ := Option.some.inj (hlook.symm.trans hlook₀)
          rcases h₂ with ⟨rfl, -⟩ | ⟨s', -, hmem, -⟩
          · exact .inr ⟨s, rfl, mem_cons_self, rfl⟩
          · exact absurd (hin.id_mem (mem_map_of_mem hmem)) hnot
        · next hid =>
          rcases h₂ with ⟨rfl, hno⟩ | ⟨s', rfl, hyes, hkey⟩
          · exact .inl ⟨rfl, not_or.mpr ⟨hid, hno⟩⟩
          · exact .inr ⟨s', rfl, mem_cons_of_mem _ hyes, hkey⟩

/-- What the loop over the eligible events does to an event, by whether it puts
it in a bucket. -/
def PlacedIn (new : List (Slot × LocalEvent)) (id : EventId) (e e' : LocalEvent) : Prop :=
  (e' = e ∧ id ∉ new.map (·.2.eventId)) ∨
    ∃ s, e' = { e with start := some s } ∧ id ∈ new.map (·.2.eventId)

theorem PlacedAt.placedIn {new : List (Slot × LocalEvent)} (h : PlacedAt new id e e') :
    PlacedIn new id e e' := by
  rcases h with hno | ⟨s, rfl, hmem, rfl⟩
  · exact .inl hno
  · exact .inr ⟨s, rfl, mem_map.mpr ⟨_, hmem, rfl⟩⟩

section

variable (h : Balanced cfg lb) (hnodup : (order.map (·.eventId)).Nodup)
  (horder : ∀ e ∈ order, lb.localEvents.lookup e.eventId = some e ∧ e.start = none)
  (hrun : order.foldl (placeEvent cfg slot) (lb, buckets) = (lb', buckets'))
include h hnodup horder hrun

/-- The loop over the eligible events keeps the accounts of its leaf. -/
theorem foldl_placeEvent_accounts :
    Balanced cfg lb' ∧ (∀ d u, share lb' d u = share lb d u) ∧ lb'.dstFree = lb.dstFree := by
  induction order generalizing lb buckets with
  | nil =>
    cases hrun
    exact ⟨h, fun _ _ => rfl, rfl⟩
  | cons e order ih =>
    rw [foldl_cons] at hrun
    obtain ⟨hnot, hnodup⟩ := nodup_cons.mp hnodup
    obtain ⟨⟨hlook, hnone⟩, horder⟩ := forall_mem_cons.mp horder
    cases hfound : findSlot cfg slot lb e with
    | none =>
      rw [placeEvent, hfound] at hrun
      exact ih h hnodup horder hrun
    | some s =>
      have hstep : placeEvent cfg slot (lb, buckets) e =
          (placed cfg lb e s, buckets ++ [(s, e)]) := by
        rw [placeEvent, hfound]
        rfl
      rw [hstep] at hrun
      obtain ⟨hbal, hshare, hdst⟩ := placed_spec h hlook hnone hfound
      have horder' : ∀ e₁ ∈ order, (placed cfg lb e s).localEvents.lookup e₁.eventId = some e₁ ∧
          e₁.start = none := fun e₁ he₁ => by
        have hne : e₁.eventId ≠ e.eventId := fun heq => hnot (mem_map.mpr ⟨e₁, he₁, heq⟩)
        rw [localEvents_placed, lookup_mapVal, (horder e₁ he₁).1, map_some, if_neg hne]
        exact ⟨rfl, (horder e₁ he₁).2⟩
      obtain ⟨hbal', hshare', hdst'⟩ := ih hbal hnodup horder' hrun
      exact ⟨hbal', fun d u => (hshare' d u).trans (hshare d u), hdst'.trans hdst⟩

theorem foldl_placeEvent :
    Balanced cfg lb' ∧ (∀ d u, share lb' d u = share lb d u) ∧ lb'.dstFree = lb.dstFree ∧
    ∃ new, buckets' = buckets ++ new ∧ Changed (PlacedIn new) lb.localEvents lb'.localEvents := by
  obtain ⟨hbal, hshare, hdst⟩ := foldl_placeEvent_accounts h hnodup horder hrun
  obtain ⟨new, hnew, -, hchanged⟩ :=
    foldl_placeEvent_events hnodup (fun e he => (horder e he).1) hrun
  exact ⟨hbal, hshare, hdst, new, hnew, hchanged.mono fun _ _ _ => PlacedAt.placedIn⟩

end

theorem mem_bucket : e ∈ sort.run ((buckets.filter (·.1 = s)).map (·.2)) ↔ (s, e) ∈ buckets := by
  rw [(sort.isSortOf _).mem_iff]
  simp [mem_map, mem_filter]

theorem mem_commits :
    id ∈ (commits sort lb buckets).map (·.1) ↔ id ∈ buckets.map (·.2.eventId) := by
  simp only [commits, mem_map, mem_flatMap, mem_dedup]
  constructor
  · rintro ⟨-, ⟨s, -, ⟨e, k⟩, hmem, rfl⟩, rfl⟩
    exact ⟨(s, e), mem_bucket.mp (fst_mem_of_mem_zipIdx hmem), rfl⟩
  · rintro ⟨⟨s, e⟩, hmem, rfl⟩
    obtain ⟨k, hk, hget⟩ := getElem_of_mem (mem_bucket.mpr hmem)
    exact ⟨_, ⟨s, ⟨(s, e), hmem, rfl⟩, (e, k),
      mem_zipIdx_iff_getElem?.mpr (List.getElem?_eq_some_iff.mpr ⟨hk, hget⟩), rfl⟩, rfl⟩

/-- The release time of an event to commit is that of its place in a bucket. -/
theorem commits_index {t : Time} (h : (id, t) ∈ commits sort lb buckets) :
    ∃ s k e, (e, k) ∈ (sort.run ((buckets.filter (·.1 = s)).map (·.2))).zipIdx ∧
      e.eventId = id ∧ t = releaseTimeOf lb s k e := by
  simp only [commits, mem_map, mem_flatMap] at h
  obtain ⟨s, -, ⟨e, k⟩, hmem, heq⟩ := h
  obtain ⟨rfl, rfl⟩ := Prod.mk.inj heq
  exact ⟨s, k, e, hmem, rfl, rfl⟩

/-- An event to commit comes with its release time in the bucket it is in. -/
theorem commits_time {t : Time} (h : (id, t) ∈ commits sort lb buckets) :
    ∃ s k e, (s, e) ∈ buckets ∧ e.eventId = id ∧ t = releaseTimeOf lb s k e := by
  obtain ⟨s, k, e, hmem, hid, ht⟩ := commits_index h
  exact ⟨s, k, e, mem_bucket.mp (fst_mem_of_mem_zipIdx hmem), hid, ht⟩

/-- What the commitments do to an event, with its release time. -/
def CommittedAt (cs : List (EventId × Time)) (id : EventId) (e e' : LocalEvent) : Prop :=
  (e' = e ∧ id ∉ cs.map (·.1)) ∨
    ∃ t, (id, t) ∈ cs ∧ e' = { e with releaseTime := t, committed := true }

theorem foldl_commitEvent_times (cs : List (EventId × Time)) (lb : LeafBroker) :
    ∃ events, cs.foldl commitEvent lb = { lb with localEvents := events } ∧
      Changed (CommittedAt cs) lb.localEvents events := by
  induction cs generalizing lb with
  | nil => exact ⟨lb.localEvents, rfl, .refl fun id e _ => .inl ⟨rfl, by simp⟩⟩
  | cons c cs ih =>
    obtain ⟨events, heq, hevents⟩ := ih (commitEvent lb c)
    refine ⟨events, heq, (changed_mapVal (R := CommittedAt [c]) fun id e _ => ?_).trans hevents
      fun id e₀ e₁ e₂ h₁ h₂ => ?_⟩
    · split
      · next hid => exact .inr ⟨c.2, by simp [hid], rfl⟩
      · next hid => exact .inl ⟨rfl, by simpa using hid⟩
    · rcases h₂ with ⟨rfl, hno⟩ | ⟨t, ht, rfl⟩
      · rcases h₁ with ⟨rfl, hno'⟩ | ⟨t, ht, rfl⟩
        · exact .inl ⟨rfl, by simp_all⟩
        · exact .inr ⟨t, by simp_all, rfl⟩
      · refine .inr ⟨t, mem_cons_of_mem c ht, ?_⟩
        rcases h₁ with ⟨rfl, -⟩ | ⟨t', -, rfl⟩ <;> rfl

/-- What the commitments do to an event. -/
def CommittedBy (cs : List (EventId × Time)) (id : EventId) (e e' : LocalEvent) : Prop :=
  SameLoad e e' ∧ e'.requests = e.requests ∧
    (e'.committed = true ↔ e.committed = true ∨ id ∈ cs.map (·.1))

theorem CommittedAt.committedBy {cs : List (EventId × Time)} (h : CommittedAt cs id e e') :
    CommittedBy cs id e e' := by
  rcases h with ⟨rfl, hno⟩ | ⟨t, ht, rfl⟩
  · exact ⟨.refl e', rfl, by simp [hno]⟩
  · exact ⟨⟨rfl, rfl, rfl, rfl, rfl⟩, rfl, iff_of_true rfl (.inr (mem_map_of_mem ht))⟩

theorem foldl_commitEvent (cs : List (EventId × Time)) (lb : LeafBroker) :
    ∃ events, cs.foldl commitEvent lb = { lb with localEvents := events } ∧
      Changed (CommittedBy cs) lb.localEvents events := by
  obtain ⟨events, heq, hevents⟩ := foldl_commitEvent_times cs lb
  exact ⟨events, heq, hevents.mono fun _ _ _ => CommittedAt.committedBy⟩

/-- The events that `FastControlPath` sorts are events of the leaf without a
window. -/
theorem eligible_order (sort : Sorter EventLess) (now : Time) (h : Balanced cfg lb)
    (hs : Settled lb) :
    ((sort.run (lb.events.filter (eligible now))).map (·.eventId)).Nodup ∧
    ∀ e ∈ sort.run (lb.events.filter (eligible now)),
      lb.localEvents.lookup e.eventId = some e ∧ eligible now e = true ∧ e.start = none := by
  have hperm := (sort.isSortOf (lb.events.filter (eligible now))).1
  have hkeys : lb.events.map (·.eventId) = lb.localEvents.entries.map Sigma.fst := by
    rw [LeafBroker.events, map_map]
    exact map_congr_left fun kv hkv => h.keyed kv.1 kv.2 (mem_entries_iff.mp hkv)
  refine ⟨?_, fun e he => ?_⟩
  · rw [(hperm.map _).nodup_iff]
    refine List.Nodup.sublist (filter_sublist.map _) ?_
    rw [hkeys]
    exact lb.localEvents.nodupKeys
  · obtain ⟨hmem, helig⟩ := mem_filter.mp (hperm.mem_iff.mp he)
    obtain ⟨⟨id, e'⟩, hentry, rfl⟩ := mem_map.mp hmem
    have hlook := mem_entries_iff.mp hentry
    have hkey := h.keyed id e' hlook
    refine ⟨hkey ▸ hlook, helig, ?_⟩
    have hsettled := hs id e' hlook
    have hnot : e'.committed = false := by
      rw [eligible, Bool.and_eq_true, Bool.not_eq_true'] at helig
      exact helig.1
    rw [hnot] at hsettled
    exact Option.not_isSome_iff_eq_none.mp fun hsome => Bool.false_ne_true (hsettled.mp hsome)

/-- A change of an event that leaves all of its accounts alone. -/
def Kept (_ : EventId) (e e' : LocalEvent) : Prop :=
  SameLoad e e' ∧ e'.committed = e.committed ∧ e'.requests = e.requests

theorem Kept.refl (id : EventId) (e : LocalEvent) : Kept id e e := ⟨.refl e, rfl, rfl⟩

theorem Kept.trans {e'' : LocalEvent} (h : Kept id e e') (h' : Kept id e' e'') : Kept id e e'' :=
  ⟨h.1.trans h'.1, h'.2.1.trans h.2.1, h'.2.2.trans h.2.2⟩

theorem Settled.changed (h : Settled lb) (hevents : Changed R lb.localEvents lb'.localEvents)
    (hR : ∀ id e e', R id e e' → e'.start = e.start ∧ e'.committed = e.committed) :
    Settled lb' := fun id e' he' => by
  obtain ⟨e, he, hr⟩ := hevents.lookup he'
  rw [(hR id e e' hr).1, (hR id e e' hr).2]
  exact h id e he

theorem changed_modifyAll {f : LocalEvent → LocalEvent} (h : ∀ id e, R id e (f e)) :
    Changed R lb.localEvents (lb.modifyAll f).localEvents :=
  changed_mapVal fun id e _ => h id e

theorem changed_modify {eId : EventId} {f : LocalEvent → LocalEvent} (hself : ∀ e, R eId e (f e))
    (hother : ∀ id e, R id e e) : Changed R lb.localEvents (lb.modify eId f).localEvents := by
  have hone : ∀ id e, R id e (if id = eId then f e else e) := fun id e => by
    split
    · next hid => exact hid ▸ hself e
    · exact hother id e
  exact changed_mapVal fun id e _ => hone id e

/-- What a pass of `FastControlPath` keeps of an event. -/
def SameDemand (_ : EventId) (e e' : LocalEvent) : Prop :=
  e'.span = e.span ∧ e'.foot = e.foot ∧ e'.requests = e.requests

/-- `FastControlPath` keeps the accounts of its leaf, and its shares of the
destinations. -/
theorem fastControlPath_spec (sort : Sorter EventLess) (now : Time) (h : Balanced cfg lb)
    (hs : Settled lb) :
    Balanced cfg (fastControlPath cfg sort now lb) ∧ Settled (fastControlPath cfg sort now lb) ∧
    (∀ d u, share (fastControlPath cfg sort now lb) d u = share lb d u) ∧
    (fastControlPath cfg sort now lb).dstFree = lb.dstFree ∧
    Changed SameDemand lb.localEvents (fastControlPath cfg sort now lb).localEvents := by
  generalize hlb₁ : lb.modifyAll (fun e =>
    if eligible now e then { e with prio := priority cfg alphaAge e } else e) = lb₁
  have hprio : Changed Kept lb.localEvents lb₁.localEvents := by
    subst hlb₁
    exact changed_modifyAll fun id e => by split <;> exact ⟨⟨rfl, rfl, rfl, rfl, rfl⟩, rfl, rfl⟩
  have hbal₁ : Balanced cfg lb₁ := by
    subst hlb₁
    exact h.changed hprio fun _ _ _ hk => hk.1
  have hshare₁ : ∀ d u, share lb₁ d u = share lb d u := fun d u => by
    have hheld := (accounts_of_changed hprio fun _ _ _ hk => hk.1).2 d u
    subst hlb₁
    exact congrArg (getFree (lb.grantedQuota d) u 0 + ·) hheld
  have hsettled₁ := hs.changed hprio fun _ _ _ hk => ⟨hk.1.start, hk.2.1⟩
  obtain ⟨hnodup, horder⟩ := eligible_order sort now hbal₁ hsettled₁
  generalize hrun : (sort.run (lb₁.events.filter (eligible now))).foldl
    (placeEvent cfg (slotOf now)) (lb₁, []) = st
  obtain ⟨lb₂, buckets⟩ := st
  obtain ⟨hbal₂, hshare₂, hdst₂, new, hnew, hplaced⟩ := foldl_placeEvent hbal₁ hnodup
    (fun e he => ⟨(horder e he).1, (horder e he).2.2⟩) hrun
  obtain rfl : buckets = new := hnew
  obtain ⟨events, heq, hcommits⟩ := foldl_commitEvent (commits sort lb₂ buckets) lb₂
  have hpath : fastControlPath cfg sort now lb = { lb₂ with localEvents := events } := by
    rw [← heq, fastControlPath]
    simp only [hlb₁, hrun]
  rw [hpath]
  have hheld := accounts_of_changed (l := { lb₂ with localEvents := events }) hcommits
    fun _ _ _ hc => hc.1
  refine ⟨hbal₂.changed hcommits fun _ _ _ hc => hc.1, fun id e₃ he₃ => ?_, fun d u => ?_, ?_,
    (hprio.trans hplaced (T := SameDemand) fun id e₀ e₁ e₂ h₁ h₂ => ?_).trans hcommits
      fun id e₀ e₂ e₃ h₂ h₃ => ?_⟩
  · -- an event has a window now if it had one before or is in a bucket
    obtain ⟨e₂, he₂, hload, -, hcomm⟩ := hcommits.lookup he₃
    obtain ⟨e₁, he₁, hcase⟩ := hplaced.lookup he₂
    have hbefore := hsettled₁ id e₁ he₁
    rw [hcomm, mem_commits, hload.start]
    rcases hcase with ⟨rfl, hno⟩ | ⟨s, rfl, hyes⟩
    · simpa [hno] using hbefore
    · exact iff_of_true rfl (.inr hyes)
  · exact (congrArg (getFree (lb₂.grantedQuota d) u 0 + ·) (hheld.2 d u)).trans
      ((hshare₂ d u).trans (hshare₁ d u))
  · rw [← hlb₁] at hdst₂
    exact hdst₂
  · rcases h₂ with ⟨rfl, -⟩ | ⟨s, rfl, -⟩
    · exact ⟨h₁.1.span, h₁.1.foot, h₁.2.2⟩
    · exact ⟨h₁.1.span, h₁.1.foot, h₁.2.2⟩
  · exact ⟨h₃.1.span.trans h₂.1, h₃.1.foot.trans h₂.2.1, h₃.2.1.trans h₂.2.2⟩

/-! ## 5. Requests -/

variable {n : Nat}

variable {i d : Fin n} {queues : DestQueues n} {brokers : Fin n → LeafBroker} {g : Grants n}

theorem foldl_requestEvent {prov prov' : Dict} {queues' : DestQueues n}
    (hlt : ∀ u, getFree prov u cfg.capacityPerSlot < 2 ^ 32)
    (hrun : order.foldl (requestEvent cfg slot i) (lb, prov, queues) = (lb', prov', queues')) :
    prov'.wrapped = prov.wrapped ∧
    ∃ events, lb' = { lb with localEvents := events } ∧ Changed Kept lb.localEvents events := by
  induction order generalizing lb prov queues with
  | nil =>
    cases hrun
    exact ⟨rfl, _, rfl, .refl fun id e _ => .refl id e⟩
  | cons e order ih =>
    have hearliest : ∀ s, Changed Kept lb.localEvents
        (lb.modify e.eventId fun e' => { e' with earliestSlot := s }).localEvents := fun s =>
      changed_modify (fun _ => ⟨⟨rfl, rfl, rfl, rfl, rfl⟩, rfl, rfl⟩) .refl
    rw [foldl_cons, requestEvent] at hrun
    split at hrun
    · obtain ⟨hwrap, events, heq, hevents⟩ := ih hlt hrun
      exact ⟨hwrap, events, heq, (hearliest _).trans hevents fun _ _ _ _ => .trans⟩
    · next s hfound =>
      obtain ⟨hval, hwrap⟩ := take_spec (nodup_window s (u64 (s + e.span))) hlt fun u hu =>
        of_decide_eq_true ((search_spec hfound).2.2 u hu)
      obtain ⟨hwrap', events, heq, hevents⟩ :=
        ih (fun u => (Nat.le.intro (hval u)).trans_lt (hlt u)) hrun
      exact ⟨hwrap'.trans hwrap, events, heq, (hearliest s).trans hevents fun _ _ _ _ => .trans⟩

theorem sum_of_eq_of_ne {f g : Fin n → Nat} (i : Fin n) (h : ∀ s, s ≠ i → f s = g s) :
    ∑ s, f s + g i = ∑ s, g s + f i := by
  rw [← Finset.sum_erase_add _ _ (Finset.mem_univ i),
    ← Finset.sum_erase_add _ g (Finset.mem_univ i),
    Finset.sum_congr rfl fun s hs => h s (Finset.ne_of_mem_erase hs)]
  exact Nat.add_right_comm _ _ _

/-- The accounts of all leaves balance, at both ends. -/
structure Ledger (cfg : Config) (brokers : Fin n → LeafBroker) : Prop where
  balanced : ∀ s, Balanced cfg (brokers s)
  settled : ∀ s, Settled (brokers s)
  dst : ∀ (d : Fin n) (u : Slot), getFree (brokers d).dstFree u cfg.capacityPerSlot +
    ∑ s, share (brokers s) d u = cfg.capacityPerSlot
  dst_wrapped : ∀ d, (brokers d).dstFree.wrapped = false

theorem Ledger.dst_le (h : Ledger cfg brokers) (d : Fin n) (u : Slot) :
    getFree (brokers d).dstFree u cfg.capacityPerSlot ≤ cfg.capacityPerSlot :=
  Nat.le.intro (h.dst d u)

theorem Ledger.update (h : Ledger cfg brokers) (hbal : Balanced cfg lb) (hs : Settled lb)
    (hshare : ∀ d u, share lb d u = share (brokers i) d u) (hdst : lb.dstFree = (brokers i).dstFree)
    : Ledger cfg (Function.update brokers i lb) where
  balanced s := by
    rw [update_apply]
    split
    · exact hbal
    · exact h.balanced s
  settled s := by
    rw [update_apply]
    split
    · exact hs
    · exact h.settled s
  dst d u := by
    have hfree : (Function.update brokers i lb d).dstFree = (brokers d).dstFree := by
      rw [update_apply]
      split
      · next hd => rw [hdst, hd]
      · rfl
    have hshares : ∀ s, share (Function.update brokers i lb s) d u = share (brokers s) d u :=
      fun s => by
        rw [update_apply]
        split
        · next hi => rw [hshare, hi]
        · rfl
    simp only [hfree, hshares]
    exact h.dst d u
  dst_wrapped d := by
    rw [update_apply]
    split
    · rw [hdst]
      exact h.dst_wrapped i
    · exact h.dst_wrapped d

/-- What the request phase of its leaf does to an event. -/
def Observed (now : Time) (_ : EventId) (e e' : LocalEvent) : Prop :=
  SameLoad e e' ∧ e'.committed = e.committed ∧
    e'.requests = e.requests + if eligible now e then 1 else 0

theorem observed_observe (cfg : Config) (now : Time) (id : EventId) (e : LocalEvent) :
    Observed now id e (observe cfg now e) := by
  unfold observe
  split
  · next helig => exact ⟨⟨rfl, rfl, rfl, rfl, rfl⟩, rfl, by simp [helig]⟩
  · next helig => exact ⟨.refl e, rfl, by simp [helig]⟩

theorem eligible_observe (cfg : Config) (now : Time) (e : LocalEvent) :
    eligible now (observe cfg now e) = eligible now e := by
  unfold observe
  split <;> rfl

/-- The request phase of leaf `i` changes nothing but its events. -/
theorem requestPhase_spec (sort : Sorter EventLess) (now : Time) (queues : DestQueues n)
    (h : Balanced cfg (brokers i)) :
    ∃ events, (requestPhase cfg sort now (brokers, queues) i).1 =
        Function.update brokers i { brokers i with localEvents := events } ∧
      Changed (Observed now) (brokers i).localEvents events := by
  generalize hlb : (brokers i).modifyAll (observe cfg now) = lb
  generalize hrun : (sort.run (lb.events.filter (eligible now))).foldl
    (requestEvent cfg (slotOf now) i) (lb, lb.srcFree, queues) = st
  obtain ⟨lb', prov, queues'⟩ := st
  have hsrc : lb.srcFree = (brokers i).srcFree := by
    rw [← hlb]
    rfl
  obtain ⟨hwrap, events, heq, hevents⟩ := foldl_requestEvent (fun u => hsrc ▸ h.src_lt u) hrun
  have hobserved : Changed (Observed now) (brokers i).localEvents lb.localEvents := by
    rw [← hlb]
    exact changed_modifyAll (observed_observe cfg now)
  refine ⟨events, ?_, hobserved.trans hevents fun id e e' e'' h₁ h₂ =>
    ⟨h₁.1.trans h₂.1, h₂.2.1.trans h₁.2.1, h₂.2.2.trans h₁.2.2⟩⟩
  have hphase : requestPhase cfg sort now (brokers, queues) i = (Function.update brokers i
      { lb' with srcFree := { lb'.srcFree with wrapped := prov.wrapped } }, queues') := by
    rw [requestPhase]
    simp only [hlb, hrun]
  rw [hphase, heq, hwrap, ← hlb]
  rfl

theorem requestPhase_ledger (h : Ledger cfg brokers) (i : Fin n) :
    Ledger cfg (requestPhase cfg sort now (brokers, queues) i).1 := by
  obtain ⟨events, heq, hevents⟩ := requestPhase_spec sort now queues (h.balanced i)
  have hheld := accounts_of_changed (l := { brokers i with localEvents := events }) hevents
    fun _ _ _ ho => ho.1
  rw [heq]
  exact h.update ((h.balanced i).changed hevents fun _ _ _ ho => ho.1)
    ((h.settled i).changed hevents fun _ _ _ ho => ⟨ho.1.start, ho.2.1⟩)
    (fun d u => congrArg (getFree ((brokers i).grantedQuota d) u 0 + ·) (hheld.2 d u)) rfl

/-! ## 6. Grants -/

theorem foldl_grantSlot (cfg : Config) (src : Fin n) (req : Request n) (l : List Slot)
    (g : Grants n) : l.foldl (grantSlot cfg src req) g = { g with
      newQuota := Function.update g.newQuota src (l.foldl (fun quota u =>
        Function.update quota u (some (u32 ((quota u).getD 0 + req.foot)))) (g.newQuota src))
      provisionalDstFree := l.foldl (fun dict u => takeFree dict u cfg.capacityPerSlot req.foot)
        g.provisionalDstFree
      lb := { g.lb with
        dstFree := l.foldl (fun dict u => takeFree dict u cfg.capacityPerSlot req.foot)
          g.lb.dstFree } } := by
  induction l generalizing g with
  | nil => simp
  | cons u l ih =>
    rw [foldl_cons, ih]
    simp only [grantSlot, update_self, update_idem, foldl_cons]

/-- Quota granted in some slots, where it does not overflow. -/
theorem quota_spec {amount : Nat} {l : List Slot} (hl : l.Nodup) {quota : Slot → Option Nat}
    (hfits : ∀ u ∈ l, (quota u).getD 0 + amount < 2 ^ 32) (u : Slot) :
    (l.foldl (fun quota u => Function.update quota u (some (u32 ((quota u).getD 0 + amount))))
      quota u).getD 0 = (quota u).getD 0 + if u ∈ l then amount else 0 := by
  induction l generalizing quota with
  | nil => simp
  | cons s l ih =>
    obtain ⟨hs, hl⟩ := nodup_cons.mp hl
    obtain ⟨hfits₀, hfits⟩ := forall_mem_cons.mp hfits
    rw [foldl_cons, ih hl fun u hu => ?_]
    · by_cases heq : u = s
      · subst heq
        rw [update_self, u32_of_lt hfits₀, getD_some, if_neg hs, if_pos mem_cons_self, add_zero]
      · rw [update_of_ne heq]
        simp only [mem_cons, heq, false_or]
    · have hne : u ≠ s := fun heq => hs (heq ▸ hu)
      rw [update_of_ne hne]
      exact hfits u hu

/-- The grants of a destination leaf so far, against its broker before. -/
structure Granting (cfg : Config) (lb : LeafBroker) (g : Grants n) : Prop where
  lb_eq : ∃ dstFree nextPhase, g.lb = { lb with dstFree := dstFree, nextPhase := nextPhase }
  provisional : ∀ u, getFree g.provisionalDstFree u cfg.capacityPerSlot =
    getFree g.lb.dstFree u cfg.capacityPerSlot
  balance : ∀ u, getFree g.lb.dstFree u cfg.capacityPerSlot + ∑ s, (g.newQuota s u).getD 0 =
    getFree lb.dstFree u cfg.capacityPerSlot
  wrapped : g.lb.dstFree.wrapped = lb.dstFree.wrapped
  provisional_wrapped : g.provisionalDstFree.wrapped = lb.dstFree.wrapped

theorem Granting.newQuota_le (h : Granting cfg lb g) (s : Fin n) (u : Slot) :
    getFree g.lb.dstFree u cfg.capacityPerSlot + (g.newQuota s u).getD 0 ≤
      getFree lb.dstFree u cfg.capacityPerSlot := by
  rw [← h.balance u]
  exact Nat.add_le_add_left
    (Finset.single_le_sum (f := fun s => (g.newQuota s u).getD 0) (fun _ _ => Nat.zero_le _)
      (Finset.mem_univ s)) _

theorem grantPhase_eq (src : Fin n) (start : Slot) (g : Grants n) :
    ∃ newPhase nextPhase, grantPhase src start g =
      { g with newPhase := newPhase, lb := { g.lb with nextPhase := nextPhase } } := by
  unfold grantPhase
  split
  · exact ⟨g.newPhase, g.lb.nextPhase, rfl⟩
  · exact ⟨_, _, rfl⟩

/-- A request is granted in a window of free slots, of at most its span, or not
at all. -/
theorem serve_spec (src : Fin n) (req : Request n) (h : Granting cfg lb g)
    (hle : ∀ u, getFree lb.dstFree u cfg.capacityPerSlot ≤ cfg.capacityPerSlot) :
    Granting cfg lb (serve cfg src req g) ∧ ∃ l : List Slot, l.Nodup ∧ l.length ≤ req.span ∧
      ∀ u, getFree (serve cfg src req g).lb.dstFree u cfg.capacityPerSlot +
        (if u ∈ l then req.foot else 0) = getFree g.lb.dstFree u cfg.capacityPerSlot := by
  unfold serve
  split
  · exact ⟨h, [], nodup_nil, Nat.zero_le _, fun u => by simp⟩
  next start hfound =>
  generalize hl : FirstFit.window start (u64 (start + req.span)) = l
  have hnodup : l.Nodup := hl ▸ nodup_window _ _
  have hlen : l.length ≤ req.span := by
    have := u64_le (start + req.span)
    rw [← hl, length_window]
    omega
  have hroom : ∀ u ∈ l, req.foot ≤ getFree g.lb.dstFree u cfg.capacityPerSlot := fun u hu => by
    rw [← h.provisional u]
    exact of_decide_eq_true ((search_spec hfound).2.2 u (hl ▸ hu))
  have hlt : ∀ u, getFree g.lb.dstFree u cfg.capacityPerSlot < 2 ^ 32 := fun u =>
    ((Nat.le.intro (h.balance u)).trans (hle u)).trans_lt cfg.capacityPerSlot_lt
  obtain ⟨hdst, hdstw⟩ := take_spec hnodup hlt hroom
  obtain ⟨hprov, hprovw⟩ := take_spec hnodup
    (fun u => (h.provisional u).trans_lt (hlt u)) fun u hu => (h.provisional u).symm ▸ hroom u hu
  have hfits : ∀ u ∈ l, (g.newQuota src u).getD 0 + req.foot < 2 ^ 32 := fun u hu => by
    have hnew := h.newQuota_le src u
    have := hroom u hu
    have := hle u
    have := cfg.capacityPerSlot_lt
    omega
  have hquota := quota_spec hnodup hfits
  obtain ⟨newPhase, nextPhase, heq⟩ := grantPhase_eq src start (l.foldl (grantSlot cfg src req) g)
  rw [heq, foldl_grantSlot]
  refine ⟨⟨?_, fun u => ?_, fun u => ?_, hdstw.trans h.wrapped,
    hprovw.trans h.provisional_wrapped⟩, l, hnodup, hlen, hdst⟩
  · obtain ⟨dstFree, nextPhase', hlb⟩ := h.lb_eq
    exact ⟨_, nextPhase, by rw [hlb]⟩
  · have := hdst u
    have := hprov u
    have := h.provisional u
    simp only
    omega
  · have hsum := sum_of_eq_of_ne (g := fun s => (g.newQuota s u).getD 0) src
      (f := fun s => (Function.update g.newQuota src (l.foldl (fun quota u =>
        Function.update quota u (some (u32 ((quota u).getD 0 + req.foot)))) (g.newQuota src))
          s u).getD 0) fun s hs => by rw [update_of_ne hs]
    rw [update_self, hquota u] at hsum
    have := hdst u
    have := h.balance u
    simp only
    omega

theorem arbitrate_spec (hle : ∀ u, getFree lb.dstFree u cfg.capacityPerSlot ≤ cfg.capacityPerSlot)
    {fuel : Nat} {queues : Fin n → List (Request n)} (h : Granting cfg lb g) :
    Granting cfg lb (arbitrate cfg fuel queues g) := by
  induction fuel generalizing queues g with
  | zero => exact h
  | succ fuel ih =>
    rw [arbitrate]
    split
    · exact h
    · exact ih (serve_spec _ _ h hle).1

/-- The grants of leaf `d`, all requests served. -/
def grantsOf (cfg : Config) (queues : DestQueues n) (brokers : Fin n → LeafBroker) (d : Fin n) :
    Grants n :=
  arbitrate cfg (queues d).length (fun s => (queues d).filter (·.srcLeaf = s))
    { lb := { brokers d with nextPhase := fun _ => none }
      provisionalDstFree := (brokers d).dstFree }

theorem granting_start (cfg : Config) (lb : LeafBroker) : Granting cfg lb
    ({ lb := { lb with nextPhase := fun _ => none }, provisionalDstFree := lb.dstFree } :
      Grants n) where
  lb_eq := ⟨_, _, rfl⟩
  provisional _ := rfl
  balance _ := by simp
  wrapped := rfl
  provisional_wrapped := rfl

theorem grantsOf_spec (queues : DestQueues n)
    (hle : ∀ u, getFree (brokers d).dstFree u cfg.capacityPerSlot ≤ cfg.capacityPerSlot) :
    Granting cfg (brokers d) (grantsOf cfg queues brokers d) :=
  arbitrate_spec hle (granting_start cfg (brokers d))

theorem grantQuota_eq (h : Granting cfg (brokers d) (grantsOf cfg queues brokers d)) (s : Fin n) :
    ∃ dstFree grantedPhase nextPhase,
      grantQuota cfg queues brokers d s = { brokers s with
        dstFree := dstFree
        grantedQuota := (deliver d (grantsOf cfg queues brokers d) s (brokers s)).grantedQuota
        grantedPhase := grantedPhase
        nextPhase := nextPhase } ∧
      dstFree.val = (if s = d then (grantsOf cfg queues brokers d).lb else brokers s).dstFree.val ∧
      dstFree.wrapped = (brokers s).dstFree.wrapped := by
  have heq : grantQuota cfg queues brokers d s = deliver d (grantsOf cfg queues brokers d) s
      (Function.update brokers d { (grantsOf cfg queues brokers d).lb with
        dstFree := { (grantsOf cfg queues brokers d).lb.dstFree with
          wrapped := (grantsOf cfg queues brokers d).lb.dstFree.wrapped ||
            (grantsOf cfg queues brokers d).provisionalDstFree.wrapped } } s) := rfl
  rw [heq, update_apply]
  split
  · next hs =>
    subst hs
    obtain ⟨dstFree, nextPhase, hlb⟩ := h.lb_eq
    have hwrap := h.wrapped
    rw [hlb] at hwrap ⊢
    exact ⟨_, _, _, rfl, rfl, by rw [hwrap, h.provisional_wrapped, Bool.or_self]⟩
  · exact ⟨_, _, _, rfl, rfl, rfl⟩

theorem localEvents_grantQuota (h : Ledger cfg brokers) (d s : Fin n) :
    (grantQuota cfg queues brokers d s).localEvents = (brokers s).localEvents := by
  obtain ⟨_, _, _, heq, -, -⟩ := grantQuota_eq (grantsOf_spec queues (h.dst_le d)) s
  rw [heq]

theorem getFree_deliver {s : Fin n} {u : Slot}
    (hfits : getFree (lb.grantedQuota d) u 0 + (g.newQuota s u).getD 0 < 2 ^ 32) :
    getFree ((deliver d g s lb).grantedQuota d) u 0 =
      getFree (lb.grantedQuota d) u 0 + (g.newQuota s u).getD 0 := by
  simp only [getFree, deliver, update_self] at hfits ⊢
  cases hnew : g.newQuota s u with
  | none => rw [Option.getD_none, add_zero]
  | some quota =>
    rw [hnew, getD_some] at hfits
    rw [getD_some, getD_some, u32_of_lt hfits]

/-- Granted quota and what the leaves had before stay within the capacity. -/
theorem Ledger.granted_lt (h : Ledger cfg brokers) (hgrant : Granting cfg (brokers d) g) (s : Fin n)
    (u : Slot) : getFree ((brokers s).grantedQuota d) u 0 + (g.newQuota s u).getD 0 < 2 ^ 32 := by
  have hnew := hgrant.newQuota_le s u
  have hdst := h.dst d u
  have hshare : share (brokers s) d u ≤ ∑ s, share (brokers s) d u :=
    Finset.single_le_sum (f := fun s => share (brokers s) d u) (fun _ _ => Nat.zero_le _)
      (Finset.mem_univ s)
  have hquota : getFree ((brokers s).grantedQuota d) u 0 ≤ share (brokers s) d u :=
    Nat.le_add_right _ _
  have hcap := cfg.capacityPerSlot_lt
  omega

theorem grantQuota_ledger (h : Ledger cfg brokers) (d : Fin n) :
    Ledger cfg (grantQuota cfg queues brokers d) := by
  have hgrant := grantsOf_spec queues (h.dst_le d)
  have heq := grantQuota_eq hgrant
  generalize grantsOf cfg queues brokers d = g at hgrant heq
  have hself : ∀ s u, getFree ((deliver d g s (brokers s)).grantedQuota d) u 0 =
      getFree ((brokers s).grantedQuota d) u 0 + (g.newQuota s u).getD 0 := fun s u =>
    getFree_deliver (h.granted_lt hgrant s u)
  have hother : ∀ s (d' : Leaf), d' ≠ d →
      (deliver d g s (brokers s)).grantedQuota d' = (brokers s).grantedQuota d' :=
    fun s d' hne => update_of_ne hne _ _
  refine ⟨fun s => ?_, fun s => ?_, fun d' u => ?_, fun s => ?_⟩
  · obtain ⟨dstFree, grantedPhase, nextPhase, hs, -, -⟩ := heq s
    rw [hs]
    have hbal := h.balanced s
    refine ⟨hbal.src, hbal.src_wrapped, fun d' u => ?_, fun d' => ?_, hbal.keyed⟩
    · by_cases hd : d' = d
      · simp only [hd, hself]
        exact h.granted_lt hgrant s u
      · simp only [hother s d' hd]
        exact hbal.quota_lt d' u
    · by_cases hd : d' = d
      · simp only [hd, deliver, update_self]
        exact hbal.quota_wrapped d
      · simp only [hother s d' hd]
        exact hbal.quota_wrapped d'
  · obtain ⟨dstFree, grantedPhase, nextPhase, hs, -, -⟩ := heq s
    rw [hs]
    exact h.settled s
  · -- quota moves from the destination `d` to the shares of the sources
    have hshare : ∀ s, share (grantQuota cfg queues brokers d s) d' u =
        share (brokers s) d' u + if d' = d then (g.newQuota s u).getD 0 else 0 := fun s => by
      obtain ⟨dstFree, grantedPhase, nextPhase, hs, -, -⟩ := heq s
      rw [hs]
      split
      · next hd =>
        subst hd
        exact (congrArg (· + heldFoot (brokers s) d' u) (hself s u)).trans (Nat.add_right_comm _ _ _)
      · next hd =>
        have hne : (d' : Leaf) ≠ d := fun heq => hd (Fin.ext heq)
        exact congrArg (getFree · u 0 + heldFoot (brokers s) d' u) (hother s d' hne)
    obtain ⟨dstFree, grantedPhase, nextPhase, hs, hval, -⟩ := heq d'
    have hfree : getFree (grantQuota cfg queues brokers d d').dstFree u cfg.capacityPerSlot =
        getFree (if d' = d then g.lb else brokers d').dstFree u cfg.capacityPerSlot := by
      rw [hs, getFree, getFree, hval]
    have hbefore := h.dst d' u
    simp only [hshare, Finset.sum_add_distrib, hfree]
    split
    · next hd =>
      subst hd
      have := hgrant.balance u
      omega
    · simpa using hbefore
  · obtain ⟨dstFree, grantedPhase, nextPhase, hs, -, hwrap⟩ := heq s
    rw [hs]
    exact hwrap.trans (h.dst_wrapped s)

/-! ## 7. Every run -/

theorem foldl_keeps {α β : Type*} {P : β → Prop} {f : β → α → β} (h : ∀ b a, P b → P (f b a))
    (l : List α) {b : β} (hb : P b) : P (l.foldl f b) := by
  induction l generalizing b with
  | nil => exact hb
  | cons a l ih => exact ih (h b a hb)

theorem onEpochTimer_ledger {st : State n} (h : Ledger cfg st.brokers) :
    Ledger cfg (onEpochTimer cfg sort now st).brokers := by
  refine foldl_keeps (P := Ledger cfg) (fun brokers i hled => ?_) _ (foldl_keeps
    (P := Ledger cfg) (fun brokers d hled => grantQuota_ledger hled d) _ (foldl_keeps
      (P := fun st' : (Fin n → LeafBroker) × DestQueues n => Ledger cfg st'.1)
      (fun st' i hled => requestPhase_ledger hled i) _ h))
  obtain ⟨hbal, hs, hshare, hdst, -⟩ :=
    fastControlPath_spec sort now (hled.balanced i) (hled.settled i)
  exact hled.update hbal hs hshare hdst

/-- A broker with one more event. -/
def register (lb : LeafBroker) (e : LocalEvent) : LeafBroker :=
  { lb with localEvents := lb.localEvents.insert e.eventId e }

/-- A new event holds nothing. -/
theorem register_spec (h : Balanced cfg lb) (hs : Settled lb) (hnew : e.eventId ∉ lb.localEvents)
    (hstart : e.start = none) (hcomm : e.committed = false) :
    Balanced cfg (register lb e) ∧ Settled (register lb e) ∧
    ∀ d u, share (register lb e) d u = share lb d u := by
  have hholds : ∀ u, ¬ e.Holds u := fun u ⟨s, hs, _⟩ => by
    rw [hstart] at hs
    cases hs
  have hlookup : ∀ id e', (register lb e).localEvents.lookup id = some e' →
      (id = e.eventId ∧ e' = e) ∨ lb.localEvents.lookup id = some e' := fun id e' he' => by
    by_cases hid : id = e.eventId
    · subst hid
      rw [register, AList.lookup_insert] at he'
      exact .inl ⟨rfl, (Option.some.inj he').symm⟩
    · rw [register, AList.lookup_insert_ne hid] at he'
      exact .inr he'
  refine ⟨⟨fun u => ?_, h.src_wrapped, h.quota_lt, h.quota_wrapped, fun id e' he' => ?_⟩,
    fun id e' he' => ?_, fun d u => ?_⟩
  · rw [heldSrc, register, total_insert hnew, if_neg (hholds u), zero_add]
    exact h.src u
  · rcases hlookup id e' he' with ⟨rfl, rfl⟩ | hold
    · rfl
    · exact h.keyed id e' hold
  · rcases hlookup id e' he' with ⟨rfl, rfl⟩ | hold
    · rw [hstart, hcomm]
      exact Iff.rfl
    · exact hs id e' hold
  · rw [share, heldFoot, register, total_insert hnew, if_neg (hholds u), zero_add]
    rfl

/-- A `CheckAdmission` call does nothing to the brokers when the leaf of its rank has the event, or
else registers the event there and runs `FastControlPath`. -/
theorem checkAdmission_brokers (h : checkAdmission cfg sort rank task now st = some (st', ret)) :
    ∃ i : Fin cfg.numLeafs, i.val = u32 (rank / cfg.k) ∧
      ((∃ e, (st.brokers i).localEvents.lookup (eventIdOf rank task) = some e ∧
          st'.brokers = st.brokers) ∨
        (st.brokers i).localEvents.lookup (eventIdOf rank task) = none ∧
          st'.brokers = Function.update st.brokers i (fastControlPath cfg sort now
            (register (st.brokers i) (newEvent cfg (eventIdOf rank task) rank task now)))) := by
  unfold checkAdmission at h
  simp only at h
  split at h
  · next hleaf =>
    refine ⟨⟨u32 (rank / cfg.k), hleaf⟩, rfl, ?_⟩
    split at h
    · next hnone =>
      cases h
      exact .inr ⟨hnone, rfl⟩
    · next e hsome =>
      cases h
      exact .inl ⟨e, hsome, rfl⟩
  · cases h

/-- What a `CheckAdmission` call can do to the brokers: register a new event at
a leaf and run its `FastControlPath`, or nothing. -/
theorem checkAdmission_cases (h : checkAdmission cfg sort rank task now st = some (st', ret)) :
    st'.brokers = st.brokers ∨
    ∃ (i : Fin cfg.numLeafs) (eId : EventId), eId ∉ (st.brokers i).localEvents ∧
      st'.brokers = Function.update st.brokers i (fastControlPath cfg sort now
        (register (st.brokers i) (newEvent cfg eId rank task now))) := by
  obtain ⟨i, -, ⟨-, -, heq⟩ | ⟨hnone, heq⟩⟩ := checkAdmission_brokers h
  · exact .inl heq
  · exact .inr ⟨i, _, AList.lookup_eq_none.mp hnone, heq⟩

section

variable (hled : Ledger cfg st.brokers)
  (h : checkAdmission cfg sort rank task now st = some (st', ret))
include hled h

theorem checkAdmission_ledger : Ledger cfg st'.brokers := by
  rcases checkAdmission_cases h with heq | ⟨i, eId, hnew, heq⟩
  · rw [heq]
    exact hled
  · obtain ⟨hbal, hs, hshare⟩ := register_spec (e := newEvent cfg eId rank task now)
      (hled.balanced i) (hled.settled i) hnew rfl rfl
    obtain ⟨hbal', hs', hshare', hdst, -⟩ := fastControlPath_spec sort now hbal hs
    rw [heq]
    exact hled.update hbal' hs' (fun d u => (hshare' d u).trans (hshare d u)) hdst

theorem checkAdmission_share (s : Fin cfg.numLeafs) (d : Leaf) (u : Slot) :
    share (st'.brokers s) d u = share (st.brokers s) d u := by
  rcases checkAdmission_cases h with heq | ⟨i, eId, hnew, heq⟩
  · rw [heq]
  · obtain ⟨hbal, hs, hshare⟩ := register_spec (e := newEvent cfg eId rank task now)
      (hled.balanced i) (hled.settled i) hnew rfl rfl
    obtain ⟨-, -, hshare', -, -⟩ := fastControlPath_spec sort now hbal hs
    rw [heq]
    rcases eq_or_ne s i with rfl | hne
    · rw [update_self, hshare' d u, hshare d u]
    · rw [update_of_ne hne]

end

theorem ledger_init (cfg : Config) : Ledger cfg (fun _ : Fin n => {}) where
  balanced _ :=
    { src := fun _ => rfl
      src_wrapped := rfl
      quota_lt := fun _ _ => (by decide : 0 < 2 ^ 32)
      quota_wrapped := fun _ => rfl
      keyed := fun _ _ h => by cases h }
  settled _ _ _ h := by cases h
  dst _ u := by
    have hshare : ∀ d : Leaf, share {} d u = 0 := fun _ => rfl
    simp only [hshare, Finset.sum_const_zero]
    rfl
  dst_wrapped _ := rfl

theorem reachable_ledger {w : World cfg} (h : Reachable cfg sort w) :
    Ledger cfg w.state.brokers := by
  induction h with
  | init => exact ledger_init cfg
  | call _ _ _ hcall ih => exact checkAdmission_ledger ih hcall
  | epoch _ _ ih => exact onEpochTimer_ledger ih

/-! ## 8. A run with rivals -/

theorem checkAdmission_isSome (sort : Sorter EventLess) (task : MoeTask) (now : Time)
    (st : State cfg.numLeafs) (h : u32 (rank / cfg.k) < cfg.numLeafs) :
    ∃ st' ret, checkAdmission cfg sort rank task now st = some (st', ret) ∧
      st'.timer = some (st.timer.getD (now + epochLength)) := by
  unfold checkAdmission
  simp only [dif_pos h]
  split <;> exact ⟨_, _, rfl, rfl⟩

theorem timer_onEpochTimer (cfg : Config) (sort : Sorter EventLess) (now : Time) (st : State n) :
    (onEpochTimer cfg sort now st).timer = some (now + epochLength) := rfl

/-- Three leaves of one server each, ten bytes to a slot. -/
def rivalsCfg : Config := construct 1 (by decide) 3 .aging (1 / 10000)

def rivalsSort : Sorter EventLess := .insertion EventLess

def taskTo (taskId : TaskId) (flows : FlowMap) : MoeTask where
  taskId := taskId
  startTime := 0
  sendFlows := flows
  expectedRecvFlows := ∅
  computationTime := 0

/-- The state after a call at the start. -/
@[irreducible] def reported (rank : Rank) (task : MoeTask) (st : State rivalsCfg.numLeafs) : State rivalsCfg.numLeafs :=
  (checkAdmission rivalsCfg rivalsSort rank task 0 st).elim st (·.1)

theorem checkAdmission_reported (task : MoeTask) (st : State rivalsCfg.numLeafs)
    (hrank : u32 (rank / rivalsCfg.k) < rivalsCfg.numLeafs) :
    ∃ ret, checkAdmission rivalsCfg rivalsSort rank task 0 st = some (reported rank task st, ret) ∧
      (reported rank task st).timer = some (st.timer.getD epochLength) := by
  obtain ⟨st', ret, hcall, htimer⟩ := checkAdmission_isSome rivalsSort task 0 st hrank
  have heq : reported rank task st = st' := by rw [reported, hcall, elim_some]
  rw [heq]
  exact ⟨ret, hcall, by rw [htimer, zero_add]⟩

theorem run_reported {st : State rivalsCfg.numLeafs} (h : Run rivalsCfg rivalsSort P {} ⟨st, 0⟩)
    (htimer : 0 ≤ st.timer.getD 0) (hrank : u32 (rank / rivalsCfg.k) < rivalsCfg.numLeafs)
    (hP : P (.call rank task 0)) :
    Run rivalsCfg rivalsSort P {} ⟨reported rank task st, 0⟩ ∧
    (reported rank task st).timer = some (st.timer.getD epochLength) := by
  obtain ⟨ret, hcall, htimer'⟩ := checkAdmission_reported task st hrank
  refine ⟨.tail h ⟨_, hP, .call (le_refl _) (fun t ht => ?_) hcall⟩, htimer'⟩
  rwa [mem_def.mp ht] at htimer

theorem run_epoch {w : World cfg} {clock : Time} (h : Run cfg sort P w ⟨st, clock⟩)
    (htimer : st.timer = some now) (hP : P (.epoch now)) :
    Run cfg sort P w ⟨onEpochTimer cfg sort now st, now⟩ :=
  .tail h ⟨_, hP, .epoch htimer⟩

/-- Rank 0 sends five bytes to each of the leaves 1 and 2. -/
def wide : MoeTask := taskTo 1 (((∅ : FlowMap).insert 1 5).insert 2 5)

/-- Rank 2 sends nine bytes to leaf 1. -/
def narrow : MoeTask := taskTo 2 ((∅ : FlowMap).insert 1 9)

/-- The state after both have reported and two epochs have gone by. -/
@[irreducible] def afterEpochs : State rivalsCfg.numLeafs :=
  onEpochTimer rivalsCfg rivalsSort 2000000 (onEpochTimer rivalsCfg rivalsSort 1000000
    (reported 2 narrow (reported 0 wide {})))

theorem run_afterEpochs (hcall : ∀ rank task, task.startTime = 0 →
    P (.call rank task 0)) (hepoch : ∀ now, now ≤ 2000000 → P (.epoch now)) :
    Run rivalsCfg rivalsSort P {} ⟨afterEpochs, 2000000⟩ := by
  have hwide : Run rivalsCfg rivalsSort P {} ⟨reported 0 wide {}, 0⟩ ∧
      (reported 0 wide {}).timer = some 1000000 :=
    run_reported .refl (le_refl _) (by decide) (hcall 0 wide rfl)
  have hnarrow : Run rivalsCfg rivalsSort P {} ⟨reported 2 narrow (reported 0 wide {}), 0⟩ ∧
      (reported 2 narrow (reported 0 wide {})).timer =
        some ((reported 0 wide {}).timer.getD epochLength) :=
    run_reported hwide.1 (by rw [hwide.2]; decide) (by decide) (hcall 2 narrow rfl)
  have htimer : (reported 2 narrow (reported 0 wide {})).timer = some 1000000 := by
    rw [hnarrow.2, hwide.2, getD_some]
  have hsecond : (onEpochTimer rivalsCfg rivalsSort 1000000
      (reported 2 narrow (reported 0 wide {}))).timer = some 2000000 := timer_onEpochTimer _ _ _ _
  unfold afterEpochs
  exact run_epoch (run_epoch hnarrow.1 htimer (hepoch _ (by decide))) hsecond (hepoch _ (le_refl _))

theorem reachable_afterEpochs : Reachable rivalsCfg rivalsSort ⟨afterEpochs, 2000000⟩ :=
  Run.reachable (run_afterEpochs (P := fun _ => True) (fun _ _ _ => trivial) fun _ _ => trivial)
    .init

end MoeJit.DistributedAging
