import MoeJit.Moe.CentralizedAdmissibility
import MoeJit.Moe.DistributedUnloaded

/-!
# Slot search and first fit

Both schedulers look for the first window of slots with enough capacity, and when a slot fails they
go on behind it. Such a search finds what trying every start slot finds as long as its slot numbers
stay within their words. When they do not, it misses windows or takes empty ones for free
(`skip_ahead_iff`).
-/

namespace MoeJit

open Words FirstFit

/-! ## 1. RunScheduling -/

namespace Centralized

variable {cfg : Config} {startSlot n : Nat} {b_ir : List (Sigma fun _ : Rank => Nat)}
  {ledger : Ledger}

/-- The search of `RunScheduling` for one task, on the ledger after the resize. -/
def scheduleSearch (cfg : Config) (startSlot : Nat) (task : TaskState) (ledger : Ledger) :
    Option (Option Nat × Ledger) :=
  let span := spanOf cfg task.d_i
  searchSlot cfg task.d_i span task.b_ir.entries (u32 (startSlot + searchHorizon cfg span)) startSlot
    (grow cfg (u32 (startSlot + searchHorizon cfg span + span + 1000)) ledger)

theorem scheduleTask_eq {tid : TaskId} {st : State} {task : TaskState}
    (h : st.pool.lookup tid = some task) :
    scheduleTask cfg startSlot tid st =
      match scheduleSearch cfg startSlot task st.ledger with
      | none => none
      | some (none, ledger) =>
        some ({ st with
          pool := st.pool.insert tid { task with span := spanOf cfg task.d_i }
          ledger := ledger }, [])
      | some (some t, ledger) =>
        let (ledger, subs) := commit task.d_i (spanOf cfg task.d_i) task.b_ir.entries
          (spanOf cfg task.d_i) t ledger
        some ({ st with
          pool := st.pool.insert tid { task with
            span := spanOf cfg task.d_i, scheduled := true, allowedTime := t * cfg.deltaT }
          ledger := ledger }, [⟨tid, t, spanOf cfg task.d_i, task.d_i, task.b_ir, subs⟩]) := by
  rw [scheduleTask, h]
  rfl

/-- The number of start slots to look at. -/
def horizonOf (cfg : Config) (span : Nat) : Nat :=
  if span < cfg.horizon then cfg.horizon else span + 100

instance (cfg : Config) (d_i span : Nat) (b_ir : List (Sigma fun _ : Rank => Nat))
    (ledger : Ledger) : DecidablePred (Room cfg d_i span b_ir ledger) := fun _ =>
  inferInstanceAs (Decidable (_ ∧ ∀ kv ∈ b_ir, _))

/-- Every start slot of the horizon tried in order. -/
def tryTask (cfg : Config) (startSlot : Nat) (task : TaskState) (ledger : Ledger) : Option Nat :=
  let span := spanOf cfg task.d_i
  tryAll (fun t => ∀ s ∈ window t (t + span), Room cfg task.d_i span task.b_ir.entries ledger s)
    startSlot (startSlot + horizonOf cfg span)

theorem length_grow (cfg : Config) (n : Nat) (ledger : Ledger) :
    (grow cfg n ledger).length = max ledger.length n := by
  rw [grow, List.length_append, List.length_replicate]
  omega

theorem room_grow_iff {d_i span : Nat} {s : Nat} :
    Room cfg d_i span b_ir (grow cfg n ledger) s ↔ Room cfg d_i span b_ir ledger s := by
  simp only [Room, (grow_free cfg n ledger).1, (grow_free cfg n ledger).2]

/-- A search that ends without a slot has met every start, on a ledger that is long enough. -/
theorem searchSlot_none {d_i span : Nat} {stop t : Nat} {ledger' : Ledger}
    (hword : stop + span < 2 ^ 32) (hlen : stop + span ≤ ledger.length)
    (h : searchSlot cfg d_i span b_ir stop t ledger = some (none, ledger')) :
    ∀ u, t ≤ u → u < stop → ¬WindowRoom cfg d_i span b_ir ledger u := by
  fun_induction searchSlot cfg d_i span b_ir stop t ledger with
  | case1 t ledger hlt hend =>
    rw [u32_of_lt (by omega)] at hend
    omega
  | case2 => cases h
  | case3 => cases h
  | case4 t ledger hlt hend off ledger₁ hcheck ih =>
    obtain ⟨hsame, -, hfail⟩ := checkWindow_spec hcheck
    obtain ⟨hoff, hno⟩ := hfail off rfl
    intro u hu hstop hroom
    -- a start slot up to the failing slot has that slot in its window
    by_cases hle : u ≤ t + off
    · exact hno (hroom (t + off) hle (by omega)).2
    · exact ih (hsame.length_eq ▸ hlen) h u (by omega) hstop (hsame.windowRoom_iff.mpr hroom)
  | case5 t ledger hge => exact fun u hu hstop => absurd (hu.trans_lt hstop) hge

theorem windowRoom_grow_iff {d_i span : Nat} {t : Nat} (ht : t + span ≤ n) :
    WindowRoom cfg d_i span b_ir (grow cfg n ledger) t ↔
      ∀ s ∈ window t (t + span), Room cfg d_i span b_ir ledger s := by
  simp only [WindowRoom, mem_window, room_grow_iff, and_imp]
  refine forall₃_congr fun s hs hlt => and_iff_right ?_
  exact (hlt.trans_le ht).trans_le (length_grow_ge cfg n ledger).2

/-- While the slots of a pass stay in 32 bits, the search is a first fit. -/
theorem scheduleSearch_eq_tryTask {task : TaskState}
    (hfit : startSlot + horizonOf cfg (spanOf cfg task.d_i) + spanOf cfg task.d_i + 1000 < 2 ^ 32)
    (ledger : Ledger) : (scheduleSearch cfg startSlot task ledger).map (·.1) =
      some (tryTask cfg startSlot task ledger) := by
  unfold scheduleSearch tryTask
  generalize spanOf cfg task.d_i = span at hfit
  have hhorizon : searchHorizon cfg span = horizonOf cfg span := by
    unfold searchHorizon horizonOf at *
    split
    · rfl
    · next hge =>
      rw [if_neg hge] at hfit
      exact u32_of_lt (by omega)
  simp only [hhorizon]
  rw [u32_of_lt hfit, u32_of_lt (by omega : startSlot + horizonOf cfg span < 2 ^ 32)]
  generalize horizonOf cfg span = horizon at hfit
  have hlen := (length_grow_ge cfg (startSlot + horizon + span + 1000) ledger).2
  have hroom : ∀ u, u < startSlot + horizon → (WindowRoom cfg task.d_i span task.b_ir.entries
      (grow cfg (startSlot + horizon + span + 1000) ledger) u ↔
        ∀ s ∈ window u (u + span), Room cfg task.d_i span task.b_ir.entries ledger s) :=
    fun u hu => windowRoom_grow_iff (by omega)
  have hsome : (searchSlot cfg task.d_i span task.b_ir.entries (startSlot + horizon) startSlot
      (grow cfg (startSlot + horizon + span + 1000) ledger)).isSome := searchSlot_isSome (by omega)
  obtain ⟨⟨found, ledger'⟩, hsearch⟩ := Option.isSome_iff_exists.mp hsome
  rw [hsearch, Option.map_some]
  refine congrArg some ?_
  cases found with
  | none =>
    refine (tryAll_eq_none_iff.mpr fun u hu hlt hok => ?_).symm
    exact searchSlot_none (by omega) (by omega) hsearch u hu hlt ((hroom u hlt).mpr hok)
  | some t =>
    obtain ⟨hge, hlt, hok, -, hfirst⟩ := (searchSlot_spec hsearch).2 t rfl
    refine (tryAll_eq_some_iff.mpr ⟨⟨hge, hlt⟩, (hroom t hlt).mp hok, fun u hu hut hu' => ?_⟩).symm
    exact hfirst u hu hut ((hroom u (hut.trans hlt)).mpr hu')

/-- A ledger whose first slots are used up. -/
def usedUp (length : Nat) : Ledger := List.replicate length { globalCap := 0 }

/-- The load of one rank that takes `span` whole slots. -/
def slotsTask (cfg : Config) (span : Nat) : TaskState where
  taskId := 0
  t_seen := 0
  d_i := span * cfg.rSlot
  b := span * cfg.rSlot
  span := span

theorem spanOf_slotsTask (cfg : Config) {span : Nat} (hpos : 0 < span) (hlt : span < 2 ^ 32) :
    spanOf cfg (slotsTask cfg span).d_i = span ∧ (slotsTask cfg span).d_i / span = cfg.rSlot := by
  have hneeded : slotsNeeded cfg (span * cfg.rSlot) = span := by
    have hone := cfg.rSlot_pos
    rw [slotsNeeded, Nat.add_sub_assoc hone, Nat.mul_comm, Nat.mul_add_div hone,
      Nat.div_eq_of_lt (Nat.sub_lt hone Nat.one_pos), Nat.add_zero]
  refine ⟨?_, Nat.mul_div_cancel_left _ hpos⟩
  rw [slotsTask, spanOf_eq (hneeded.symm ▸ hlt), hneeded]
  exact Nat.max_eq_right hpos

theorem room_usedUp {span length : Nat} (hpos : 0 < span) (hlt : span < 2 ^ 32)
    (hlimit : cfg.rSlot ≤ cfg.globalLimit) (s : Nat) :
    Room cfg (slotsTask cfg span).d_i span (slotsTask cfg span).b_ir.entries (usedUp length) s ↔
      length ≤ s := by
  have hranks : ∀ kv ∈ (slotsTask cfg span).b_ir.entries,
      kv.2 / span ≤ rankFree cfg (usedUp length) s kv.1 := fun kv hkv => absurd hkv List.not_mem_nil
  rw [Room, (spanOf_slotsTask cfg hpos hlt).2, and_iff_left hranks]
  have hslot := cfg.rSlot_pos
  rcases lt_or_ge s length with hs | hs
  · have hget : (usedUp length)[s]? = some { globalCap := 0 } := by
      simp [usedUp, hs]
    rw [globalFree_of_some cfg hget]
    exact iff_of_false (by simpa using hslot.ne') (by omega)
  · have hget : (usedUp length)[s]? = none := List.getElem?_eq_none (by simpa [usedUp] using hs)
    rw [globalFree, hget, Option.elim_none]
    exact iff_of_true hlimit hs

theorem u32_neededSize (cfg : Config) (startSlot span : Nat)
    (hwrap : 2 ^ 32 ≤ startSlot + horizonOf cfg span + span + 1000) :
    u32 (startSlot + searchHorizon cfg span + span + 1000) + 2 ^ 32 ≤
      startSlot + horizonOf cfg span + span + 1000 := by
  have hcut : u32 (startSlot + searchHorizon cfg span + span + 1000) =
      u32 (startSlot + horizonOf cfg span + span + 1000) := by
    unfold searchHorizon horizonOf
    split
    · rfl
    · simp only [u32, Nat.add_mod, Nat.mod_mod]
  rw [hcut, u32, Nat.mod_eq_sub_mod hwrap]
  have hle := Nat.mod_le (startSlot + horizonOf cfg span + span + 1000 - 2 ^ 32) (2 ^ 32)
  omega

/-- When the slots of a pass leave 32 bits, the search misses the first free window of a ledger
that is used up to the end of the horizon. -/
theorem scheduleSearch_ne_tryTask (hlimit : cfg.rSlot ≤ cfg.globalLimit) {span : Nat}
    (hslot : startSlot < 2 ^ 32) (hpos : 0 < span) (hlt : span < 2 ^ 32)
    (hwrap : 2 ^ 32 ≤ startSlot + horizonOf cfg span + span + 1000) :
    ∃ ledger : Ledger, ledger.length < 2 ^ 32 ∧
      (scheduleSearch cfg startSlot (slotsTask cfg span) ledger).map (·.1) ≠
        some (tryTask cfg startSlot (slotsTask cfg span) ledger) := by
  have hspan := (spanOf_slotsTask cfg hpos hlt).1
  have hhorizon : 0 < horizonOf cfg span := by
    unfold horizonOf
    split <;> omega
  obtain ⟨length, hge, hend, hword, hlast⟩ : ∃ length, startSlot ≤ length ∧
      length < startSlot + horizonOf cfg span ∧ length < 2 ^ 32 ∧
      (length = 2 ^ 32 - 1 ∨ length + 1 = startSlot + horizonOf cfg span) :=
    ⟨min (2 ^ 32 - 1) (startSlot + horizonOf cfg span - 1), by omega, by omega, by omega, by omega⟩
  refine ⟨usedUp length, by simpa [usedUp] using hword, fun heq => ?_⟩
  have hfound : tryTask cfg startSlot (slotsTask cfg span) (usedUp length) = some length := by
    rw [tryTask, hspan, tryAll_eq_some_iff]
    simp only [room_usedUp hpos hlt hlimit, mem_window]
    exact ⟨⟨hge, hend⟩, fun s hs => hs.1, fun u hu hul hall => by
      have := hall u ⟨le_refl u, by omega⟩
      omega⟩
  rw [hfound] at heq
  obtain ⟨⟨found, ledger'⟩, hsearch, hsome⟩ := Option.map_eq_some_iff.mp heq
  obtain rfl : found = some length := hsome
  rw [scheduleSearch, hspan] at hsearch
  obtain ⟨-, hstop, hroom, -⟩ := (searchSlot_spec hsearch).2 length rfl
  -- the window ends in the ledger, which is too short for it
  obtain ⟨hinside, -⟩ := hroom (length + span - 1) (by omega) (by omega)
  rw [length_grow, show (usedUp length).length = length from List.length_replicate] at hinside
  have hword' := u32_lt (startSlot + searchHorizon cfg span)
  have hneeded := u32_neededSize cfg startSlot span hwrap
  omega

end Centralized

/-! ## 2. FastControlPath and OnEpochTimer -/

namespace DistributedAging

/-- A search over `m_Wsearch` start slots for a window of `span` slots, in the source's words. -/
def searchSlots (fits : Slot → Bool) (span base : Nat) : Option Slot :=
  search fits (fun s => u64 (s + span)) (u64 (base + wSearch)) base

/-- Every start slot tried in order. -/
def trySlots (fits : Slot → Bool) (span base : Nat) : Option Slot :=
  tryAll (fun s => ∀ u ∈ window s (s + span), fits u = true) base (base + wSearch)

variable {fits : Slot → Bool} {span base : Nat}

theorem searchSlots_eq_trySlots (hpos : 0 < span) (hfit : base + wSearch + span ≤ 2 ^ 64)
    (fits : Slot → Bool) : searchSlots fits span base = trySlots fits span base := by
  have hlast : ∀ s, s < base + wSearch → u64 (s + span) = s + span := fun s hs =>
    u64_of_lt (by omega)
  rw [searchSlots, u64_of_lt (by omega : base + wSearch < 2 ^ 64), search_eq_tryAll]
  · refine tryAll_congr fun u _ hu => ?_
    rw [WindowFits, hlast u hu]
  · intro s s' _ hle hlt
    rw [hlast s (hle.trans_lt hlt), hlast s' hlt]
    exact Nat.add_le_add_right hle span

theorem u64_add_le {x y : Nat} (hy : y < 2 ^ 64) (h : 2 ^ 64 ≤ x + y) : u64 (x + y) ≤ x := by
  have hle := Nat.mod_le (x + y - 2 ^ 64) (2 ^ 64)
  rw [u64, Nat.mod_eq_sub_mod h]
  omega

/-- When they leave 64 bits, the search misses a free window or finds one without a free slot. -/
theorem searchSlots_ne_trySlots (hpos : 0 < span) (hspan : span < 2 ^ 32)
    (hwrap : 2 ^ 64 < base + wSearch + span) :
    (∀ fits, (∀ u, fits u = true) → searchSlots fits span base ≠ trySlots fits span base) ∨
    ∀ fits, (∀ u, fits u = false) → searchSlots fits span base ≠ trySlots fits span base := by
  have hsearch : 0 < wSearch := by decide
  rcases Nat.lt_or_ge (base + wSearch) (2 ^ 64) with hstop | hstop
  · refine .inr fun fits hfull heq => ?_
    have hnone : trySlots fits span base = none :=
      tryAll_eq_none_iff.mpr fun u _ _ hall => by
        simpa [hfull] using hall u (mem_window.mpr ⟨Nat.le_refl u, Nat.lt_add_of_pos_right hpos⟩)
    -- the window of this start wraps to an empty one
    obtain ⟨s, hbase, hs, hempty⟩ : ∃ s, base ≤ s ∧ s < base + wSearch ∧ u64 (s + span) ≤ s :=
      ⟨max base (2 ^ 64 - span), by omega, by omega, u64_add_le (by omega) (by omega)⟩
    have hsome : (searchSlots fits span base).isSome = true :=
      search_isSome_of_empty hfull hbase (hs.trans_eq (u64_of_lt hstop).symm) hempty
    rw [heq, hnone] at hsome
    cases hsome
  · refine .inl fun fits hfree heq => ?_
    have hsome : trySlots fits span base = some base :=
      tryAll_eq_some_iff.mpr ⟨⟨Nat.le_refl _, Nat.lt_add_of_pos_right (by decide)⟩,
        fun u _ => hfree u, fun u hu hlt => absurd hu (Nat.not_le_of_lt hlt)⟩
    have hle : u64 (base + wSearch) ≤ base := u64_add_le (by decide) hstop
    rw [hsome, searchSlots, search_eq, if_neg (Nat.not_lt_of_le hle)] at heq
    cases heq

/-- The first slot that `FastControlPath` tries. -/
def commitBase (currentSlot : Slot) (e : LocalEvent) : Slot :=
  let base := max e.readySlot currentSlot
  if e.earliestSlot ≠ noSlot ∧ base < e.earliestSlot then e.earliestSlot else base

theorem findSlot_eq (cfg : Config) (currentSlot : Slot) (lb : LeafBroker) (e : LocalEvent) :
    findSlot cfg currentSlot lb e =
      searchSlots (hasRoom cfg lb e) e.span (commitBase currentSlot e) := rfl

/-- A slot of the source has room for an event. -/
def srcFits (cfg : Config) (prov : Dict) (e : LocalEvent) (u : Slot) : Bool :=
  decide (e.srcReq ≤ getFree prov u cfg.capacityPerSlot)

/-- The source search of `OnEpochTimer`. -/
def requestSlot (cfg : Config) (currentSlot : Slot) (prov : Dict) (e : LocalEvent) : Option Slot :=
  searchSlots (srcFits cfg prov e) e.span (max e.readySlot currentSlot)

/-- A slot of the destination has room for a request. -/
def dstFits {n : Nat} (cfg : Config) (prov : Dict) (req : Request n) (u : Slot) : Bool :=
  decide (req.foot ≤ getFree prov u cfg.capacityPerSlot)

/-- The destination search of `OnEpochTimer`. -/
def grantStart {n : Nat} (cfg : Config) (prov : Dict) (req : Request n) : Option Slot :=
  searchSlots (dstFits cfg prov req) req.span req.earliestSlot

theorem requestEvent_eq (cfg : Config) (currentSlot : Slot) (i : Fin n) (lb : LeafBroker)
    (prov : Dict) (queues : DestQueues n) (e : LocalEvent) :
    requestEvent cfg currentSlot i (lb, prov, queues) e =
      match requestSlot cfg currentSlot prov e with
      | none => (lb.modify e.eventId fun e' => { e' with earliestSlot := noSlot }, prov, queues)
      | some s => (lb.modify e.eventId fun e' => { e' with earliestSlot := s },
          (e.window s).foldl (fun dict u => takeFree dict u cfg.capacityPerSlot e.srcReq) prov,
          e.foot.entries.foldl (fun queues kv => Function.update queues kv.1
            (queues kv.1 ++ [⟨e.eventId, i, s, e.span, kv.2, e.b, e.prio, e.tPred⟩])) queues) :=
  rfl

theorem serve_eq (cfg : Config) (src : Fin n) (req : Request n) (g : Grants n) :
    serve cfg src req g =
      match grantStart cfg g.provisionalDstFree req with
      | none => g
      | some start => grantPhase src start
          ((window start (u64 (start + req.span))).foldl (grantSlot cfg src req) g) :=
  rfl

/-- An event of `b` bytes that is ready at `base`. -/
def readyEvent (base span b : Nat) : LocalEvent where
  eventId := 0
  rank := 0
  taskId := 0
  tPred := 0
  b := b
  span := span
  readySlot := base
  bytesByLeaf := ∅
  foot := ∅

/-- A ledger without any capacity. -/
def noneFree : Dict where
  val _ := some 0

theorem srcFits_readyEvent (cfg : Config) (hpos : 0 < span) (u : Slot) :
    srcFits cfg {} (readyEvent base span 0) u = true ∧
    srcFits cfg noneFree (readyEvent base span span) u = false := by
  have hnone : (readyEvent base span 0).srcReq = 0 := Nat.zero_div span
  have hone : (readyEvent base span span).srcReq = 1 := Nat.div_self hpos
  rw [srcFits, srcFits, hnone, hone]
  exact ⟨decide_eq_true (Nat.zero_le _), rfl⟩

theorem findSlot_first_fit_iff (cfg : Config) (hpos : 0 < span) (hspan : span < 2 ^ 32) :
    (∀ currentSlot lb e, e.span = span → commitBase currentSlot e = base →
      findSlot cfg currentSlot lb e = trySlots (hasRoom cfg lb e) span base) ↔
    base + wSearch + span ≤ 2 ^ 64 := by
  constructor
  · intro h
    by_contra hwrap
    have hbase : ∀ b, commitBase 0 (readyEvent base span b) = base := fun b => Nat.max_zero base
    rcases searchSlots_ne_trySlots hpos hspan (Nat.lt_of_not_le hwrap) with hfree | hfull
    · refine hfree (hasRoom cfg {} (readyEvent base span 0)) (fun u => ?_) ?_
      · exact Bool.and_eq_true_iff.mpr ⟨(srcFits_readyEvent cfg hpos u).1, rfl⟩
      · have hfound := h 0 {} (readyEvent base span 0) rfl (hbase 0)
        rwa [findSlot_eq, hbase] at hfound
    · refine hfull (hasRoom cfg { srcFree := noneFree } (readyEvent base span span))
        (fun u => ?_) ?_
      · exact Bool.and_eq_false_iff.mpr (.inl (srcFits_readyEvent cfg hpos u).2)
      · have hfound := h 0 { srcFree := noneFree } (readyEvent base span span) rfl (hbase span)
        rwa [findSlot_eq, hbase] at hfound
  · intro hfit currentSlot lb e he hbase
    rw [findSlot_eq, he, hbase]
    exact searchSlots_eq_trySlots hpos hfit _

theorem requestSlot_first_fit_iff (cfg : Config) (hpos : 0 < span) (hspan : span < 2 ^ 32) :
    (∀ currentSlot prov e, e.span = span → max e.readySlot currentSlot = base →
      requestSlot cfg currentSlot prov e = trySlots (srcFits cfg prov e) span base) ↔
    base + wSearch + span ≤ 2 ^ 64 := by
  constructor
  · intro h
    by_contra hwrap
    have hbase : ∀ b, max (readyEvent base span b).readySlot 0 = base := fun b => Nat.max_zero base
    rcases searchSlots_ne_trySlots hpos hspan (Nat.lt_of_not_le hwrap) with hfree | hfull
    · refine hfree (srcFits cfg {} (readyEvent base span 0))
        (fun u => (srcFits_readyEvent cfg hpos u).1) ?_
      have hfound := h 0 {} (readyEvent base span 0) rfl (hbase 0)
      rwa [requestSlot, hbase] at hfound
    · refine hfull (srcFits cfg noneFree (readyEvent base span span))
        (fun u => (srcFits_readyEvent cfg hpos u).2) ?_
      have hfound := h 0 noneFree (readyEvent base span span) rfl (hbase span)
      rwa [requestSlot, hbase] at hfound
  · intro hfit currentSlot prov e he hbase
    rw [requestSlot, he, hbase]
    exact searchSlots_eq_trySlots hpos hfit _

/-- A request of leaf 0 for `foot` bytes of each slot from `base` on. -/
def readyRequest (base span foot : Nat) : Request 1 :=
  ⟨0, ⟨0, Nat.one_pos⟩, base, span, foot, 0, 0, 0⟩

theorem grantStart_first_fit_iff (cfg : Config) (hpos : 0 < span) (hspan : span < 2 ^ 32) :
    (∀ (n : Nat) prov (req : Request n), req.span = span → req.earliestSlot = base →
      grantStart cfg prov req = trySlots (dstFits cfg prov req) span base) ↔
    base + wSearch + span ≤ 2 ^ 64 := by
  constructor
  · intro h
    by_contra hwrap
    rcases searchSlots_ne_trySlots hpos hspan (Nat.lt_of_not_le hwrap) with hfree | hfull
    · exact hfree (dstFits cfg {} (readyRequest base span 0))
        (fun u => decide_eq_true (Nat.zero_le _)) (h 1 {} (readyRequest base span 0) rfl rfl)
    · exact hfull (dstFits cfg noneFree (readyRequest base span 1)) (fun u => rfl)
        (h 1 noneFree (readyRequest base span 1) rfl rfl)
  · intro hfit n prov req hreq hbase
    rw [grantStart, hreq, hbase]
    exact searchSlots_eq_trySlots hpos hfit _

end DistributedAging

/-! ## 3. The four loops -/

/-- From a given first slot and for a given span, each of the four searches finds on every ledger
and for every demand the slot that trying all slots finds, if and only if the slots it looks at
stay in the words of its slot numbers. -/
theorem skip_ahead_iff (scaleFactor : Rat) (globalNodes : Nat) (cfg : DistributedAging.Config)
    {startSlot base span : Nat} (hslot : startSlot < 2 ^ 32) (hpos : 0 < span)
    (hspan : span < 2 ^ 32) :
    ((∀ (task : Centralized.TaskState) (ledger : Centralized.Ledger),
        Centralized.spanOf (Centralized.construct scaleFactor globalNodes) task.d_i = span →
        ledger.length < 2 ^ 32 →
        (Centralized.scheduleSearch (Centralized.construct scaleFactor globalNodes) startSlot task
          ledger).map (·.1) = some (Centralized.tryTask
            (Centralized.construct scaleFactor globalNodes) startSlot task ledger)) ↔
      startSlot + Centralized.horizonOf (Centralized.construct scaleFactor globalNodes) span +
        span + 1000 < 2 ^ 32) ∧
    ((∀ currentSlot lb e, e.span = span → DistributedAging.commitBase currentSlot e = base →
        DistributedAging.findSlot cfg currentSlot lb e =
          DistributedAging.trySlots (DistributedAging.hasRoom cfg lb e) span base) ↔
      base + DistributedAging.wSearch + span ≤ 2 ^ 64) ∧
    ((∀ currentSlot prov e, e.span = span → max e.readySlot currentSlot = base →
        DistributedAging.requestSlot cfg currentSlot prov e =
          DistributedAging.trySlots (DistributedAging.srcFits cfg prov e) span base) ↔
      base + DistributedAging.wSearch + span ≤ 2 ^ 64) ∧
    ((∀ (n : Nat) prov (req : DistributedAging.Request n), req.span = span →
        req.earliestSlot = base → DistributedAging.grantStart cfg prov req =
          DistributedAging.trySlots (DistributedAging.dstFits cfg prov req) span base) ↔
      base + DistributedAging.wSearch + span ≤ 2 ^ 64) := by
  refine ⟨?_, DistributedAging.findSlot_first_fit_iff cfg hpos hspan,
    DistributedAging.requestSlot_first_fit_iff cfg hpos hspan,
    DistributedAging.grantStart_first_fit_iff cfg hpos hspan⟩
  constructor
  · intro h
    by_contra hwrap
    obtain ⟨ledger, hlength, hne⟩ := Centralized.scheduleSearch_ne_tryTask
      (Centralized.construct_limits scaleFactor globalNodes).2.2 hslot hpos hspan
      (Nat.le_of_not_lt hwrap)
    exact hne (h _ ledger (Centralized.spanOf_slotsTask _ hpos hspan).1 hlength)
  · intro hfit task ledger htask _
    exact Centralized.scheduleSearch_eq_tryTask (htask.symm ▸ hfit) ledger

/-- At time 0 all four are first fits for a span of one slot. -/
theorem skip_ahead_start : (∀ (task : Centralized.TaskState) (ledger : Centralized.Ledger),
      Centralized.spanOf (Centralized.construct 1 2) task.d_i = 1 → ledger.length < 2 ^ 32 →
      (Centralized.scheduleSearch (Centralized.construct 1 2) 0 task ledger).map (·.1) =
        some (Centralized.tryTask (Centralized.construct 1 2) 0 task ledger)) ∧
    ∀ currentSlot lb e, e.span = 1 → DistributedAging.commitBase currentSlot e = 0 →
      DistributedAging.findSlot DistributedAging.rivalsCfg currentSlot lb e =
        DistributedAging.trySlots (DistributedAging.hasRoom DistributedAging.rivalsCfg lb e) 1 0 := by
  obtain ⟨hschedule, hcommit, -⟩ := skip_ahead_iff 1 2 DistributedAging.rivalsCfg
    (by decide : 0 < 2 ^ 32) (by decide : 0 < 1) (by decide)
  exact ⟨hschedule.mpr (by decide), hcommit.mpr (by decide)⟩

/-- From slot 4294900000 on, at 42949 s, the end of the horizon wraps and `RunScheduling` misses the
first free slot. -/
theorem free_slot_missed : ∃ ledger : Centralized.Ledger, ledger.length < 2 ^ 32 ∧
    (Centralized.scheduleSearch (Centralized.construct 1 2) 4294900000
      (Centralized.slotsTask (Centralized.construct 1 2) 1) ledger).map (·.1) ≠
        some (Centralized.tryTask (Centralized.construct 1 2) 4294900000
          (Centralized.slotsTask (Centralized.construct 1 2) 1) ledger) :=
  Centralized.scheduleSearch_ne_tryTask (Centralized.construct_limits 1 2).2.2 (by decide)
    (by decide) (by decide) (by decide)

end MoeJit
