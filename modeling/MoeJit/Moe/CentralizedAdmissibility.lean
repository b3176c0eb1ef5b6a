import MoeJit.Moe.CentralizedRuns
import Mathlib.Tactic.Positivity

/-!
# Admissibility on an unloaded ledger

Whether `RunScheduling` gives a task the current slot when nothing is reserved
from that slot on. The constructor raises `m_Rslot` and `m_globalLimit` to at
least 1, but not `m_rankLimit`. When the limit of a rank truncates to 0, a task
whose largest load is its demand has a footprint of 1 in every slot and finds
no room in any of them. `unloaded_admissibility` is the exact condition, and
`rankLimit_pos_iff` says which scale factors have a positive limit.
-/

namespace MoeJit.Centralized

open Words StdSort List

/-! ## 1. The limits of a constructed scheduler -/

/-- The limits the constructor computes are ordered, except that the limit of a
rank may be zero. -/
theorem construct_limits (scaleFactor : Rat) (globalNodes : Nat) :
    (construct scaleFactor globalNodes).rSlot ≤
        max 1 (construct scaleFactor globalNodes).rankLimit ∧
    ((construct scaleFactor globalNodes).rankLimit = 0 →
        (construct scaleFactor globalNodes).rSlot = 1) ∧
    (construct scaleFactor globalNodes).rSlot ≤
        (construct scaleFactor globalNodes).globalLimit := by
  generalize hcfg : construct scaleFactor globalNodes = cfg
  obtain ⟨bNic, hlt, hglobal, hrank, hslot⟩ : ∃ bNic : Nat, bNic < 2 ^ 64 ∧
      cfg.globalLimit = max 1 (u64 ⌊(bNic / 8 : Rat) * (10 / 1000000) * (16 * 4) * (5 / 100)⌋₊) ∧
      cfg.rankLimit = u64 ⌊(bNic / 8 : Rat) * (10 / 1000000) * (1 / 10)⌋₊ ∧
      cfg.rSlot = max 1 (u32 cfg.rankLimit) := by
    subst hcfg
    refine ⟨_, u64_lt _, ?_, rfl, ?_⟩
    · simp only [construct]
      split <;> omega
    · simp only [construct]
      split <;> omega
  have hle : cfg.rSlot ≤ max 1 cfg.rankLimit := by
    have := u32_le cfg.rankLimit
    omega
  refine ⟨hle, fun hzero => by rw [hslot, hzero]; rfl, hle.trans ?_⟩
  -- a slot of the core holds 32 times what a rank may send in it
  have hbound : ((bNic : Nat) : Rat) < 2 ^ 64 := by exact_mod_cast hlt
  have hfit : ⌊(bNic / 8 : Rat) * (10 / 1000000) * (16 * 4) * (5 / 100)⌋₊ < 2 ^ 64 := by
    rw [Nat.floor_lt (by positivity)]
    push_cast
    linarith
  have hmono : ⌊(bNic / 8 : Rat) * (10 / 1000000) * (1 / 10)⌋₊ ≤
      ⌊(bNic / 8 : Rat) * (10 / 1000000) * (16 * 4) * (5 / 100)⌋₊ := by
    refine Nat.floor_le_floor ?_
    have : (0 : Rat) ≤ bNic := Nat.cast_nonneg _
    linarith
  rw [hglobal, hrank, u64_of_lt hfit]
  exact max_le_max (le_refl 1) ((u64_le _).trans hmono)

/-- The limit of a rank is positive exactly from a scale factor of 8e-5 on. -/
theorem rankLimit_pos_iff {scaleFactor : Rat} (globalNodes : Nat) (hpos : 0 < scaleFactor)
    (hfit : 100000000000 * scaleFactor < 2 ^ 64) :
    1 ≤ (construct scaleFactor globalNodes).rankLimit ↔ 8 / 100000 ≤ scaleFactor := by
  have hfloor : ⌊100000000000 * scaleFactor⌋₊ < 2 ^ 64 := by
    rw [Nat.floor_lt (by positivity)]
    exact_mod_cast hfit
  have hbound : ((⌊100000000000 * scaleFactor⌋₊ : Nat) : Rat) < 2 ^ 64 := by exact_mod_cast hfloor
  have hfit' : ⌊((⌊100000000000 * scaleFactor⌋₊ : Nat) / 8 : Rat) * (10 / 1000000) * (1 / 10)⌋₊ <
      2 ^ 64 := by
    rw [Nat.floor_lt (by positivity)]
    push_cast
    linarith
  have hlimit : (construct scaleFactor globalNodes).rankLimit =
      ⌊((⌊100000000000 * scaleFactor⌋₊ : Nat) / 8 : Rat) * (10 / 1000000) * (1 / 10)⌋₊ := by
    simp only [construct, u64_of_lt hfloor]
    exact u64_of_lt hfit'
  rw [hlimit, Nat.le_floor_iff (by positivity)]
  calc ((1 : Nat) : Rat) ≤ ((⌊100000000000 * scaleFactor⌋₊ : Nat) / 8 : Rat) * (10 / 1000000) *
        (1 / 10)
      ↔ ((8000000 : Nat) : Rat) ≤ ((⌊100000000000 * scaleFactor⌋₊ : Nat) : Rat) := by
        push_cast
        constructor <;> intro h <;> linarith
    _ ↔ 8000000 ≤ ⌊100000000000 * scaleFactor⌋₊ := Nat.cast_le
    _ ↔ ((8000000 : Nat) : Rat) ≤ 100000000000 * scaleFactor := Nat.le_floor_iff (by positivity)
    _ ↔ 8 / 100000 ≤ scaleFactor := by
        push_cast
        constructor <;> intro h <;> linarith

/-! ## 2. What fits a free slot -/

/-- The slots a demand fills, before the count is stored in 32 bits. -/
def slotsNeeded (cfg : Config) (bytes : Nat) : Nat := (bytes + cfg.rSlot - 1) / cfg.rSlot

/-- The loads of a task fit into slots of which nothing is reserved. A slot
count that leaves 32 bits is cut, and the loads are then compared as they are
divided over the slots that remain. -/
def FitsUnloaded (cfg : Config) (task : TaskState) : Prop :=
  if slotsNeeded cfg task.d_i < 2 ^ 32 then
    task.d_i = 0 ∨ 1 ≤ cfg.rankLimit ∨ ∀ kv ∈ task.b_ir.entries, kv.2 < task.d_i
  else
    task.d_i / spanOf cfg task.d_i ≤ cfg.globalLimit ∧
    ∀ kv ∈ task.b_ir.entries, kv.2 / spanOf cfg task.d_i ≤ cfg.rankLimit

theorem spanOf_pos (cfg : Config) (bytes : Nat) : 0 < spanOf cfg bytes := by
  unfold spanOf
  simp only
  split <;> omega

variable {cfg : Config} {bytes : Nat} {task : TaskState} {st st' : State} {tid : TaskId}
  {charges : List Charge} {now : Rat} {rank : Rank}

section

variable (h : slotsNeeded cfg bytes < 2 ^ 32)
include h

theorem spanOf_eq :
    spanOf cfg bytes = max 1 (slotsNeeded cfg bytes) := by
  have hword : bytes + cfg.rSlot - 1 < 2 ^ 64 := by
    have hlt : bytes + cfg.rSlot - 1 < 2 ^ 32 * cfg.rSlot := (Nat.div_lt_iff_lt_mul cfg.rSlot_pos).mp h
    have := Nat.mul_lt_mul_of_pos_left cfg.rSlot_lt (show 0 < 2 ^ 32 by norm_num)
    omega
  unfold spanOf
  rw [u64_of_lt hword]
  simp only
  rw [show u32 ((bytes + cfg.rSlot - 1) / cfg.rSlot) = slotsNeeded cfg bytes from u32_of_lt h]
  split <;> omega

/-- Spread over its slots, a demand takes at most the base capacity of each. -/
theorem footprint_le :
    bytes / spanOf cfg bytes ≤ cfg.rSlot := by
  refine Nat.div_le_of_le_mul ?_
  have hcover : bytes ≤ slotsNeeded cfg bytes * cfg.rSlot := by
    have := Nat.lt_mul_div_succ (bytes + cfg.rSlot - 1) cfg.rSlot_pos
    rw [Nat.mul_succ, mul_comm] at this
    unfold slotsNeeded
    omega
  refine hcover.trans (Nat.mul_le_mul_right _ ?_)
  rw [spanOf_eq h]
  exact le_max_right _ _

/-- When the base capacity is one byte, a demand has a slot for every byte. -/
theorem spanOf_of_rSlot_one (hone : cfg.rSlot = 1)
    (hpos : 0 < bytes) : spanOf cfg bytes = bytes := by
  rw [spanOf_eq h, slotsNeeded, hone, Nat.div_one]
  omega

end

theorem fitsUnloaded_iff {scaleFactor : Rat} {globalNodes : Nat}
    (hle : ∀ kv ∈ task.b_ir.entries, kv.2 ≤ task.d_i) :
    FitsUnloaded (construct scaleFactor globalNodes) task ↔
      task.d_i / spanOf (construct scaleFactor globalNodes) task.d_i ≤
        (construct scaleFactor globalNodes).globalLimit ∧
      ∀ kv ∈ task.b_ir.entries, kv.2 / spanOf (construct scaleFactor globalNodes) task.d_i ≤
        (construct scaleFactor globalNodes).rankLimit := by
  obtain ⟨hslot, hone, hglobal⟩ := construct_limits scaleFactor globalNodes
  generalize construct scaleFactor globalNodes = cfg at hslot hone hglobal ⊢
  unfold FitsUnloaded
  split
  · next hwords =>
    have hfoot := footprint_le hwords
    constructor
    · intro hcase
      refine ⟨hfoot.trans hglobal, fun kv hkv => ?_⟩
      rcases Nat.eq_zero_or_pos task.d_i with hzero | hpos
      · have : kv.2 = 0 := Nat.le_zero.mp (hzero ▸ hle kv hkv)
        rw [this, Nat.zero_div]
        exact Nat.zero_le _
      rcases Nat.eq_zero_or_pos cfg.rankLimit with hlimit | hlimit
      · rw [spanOf_of_rSlot_one hwords (hone hlimit) hpos]
        have hlt : kv.2 < task.d_i := by
          rcases hcase with h | h | h
          · omega
          · omega
          · exact h kv hkv
        rw [Nat.div_eq_of_lt hlt]
        exact Nat.zero_le _
      · have := (Nat.div_le_div_right (hle kv hkv)).trans hfoot
        exact this.trans (hslot.trans (max_le hlimit (Nat.le_refl _)))
    · rintro ⟨-, hranks⟩
      by_contra hnot
      simp only [not_or, not_forall, Nat.not_lt, Nat.not_le] at hnot
      obtain ⟨hpos, hlimit, kv, hkv, hge⟩ := hnot
      -- the largest load has a footprint of one byte, and the limit is zero
      have hzero : cfg.rankLimit = 0 := Nat.lt_one_iff.mp hlimit
      have hfootKv := hranks kv hkv
      rw [spanOf_of_rSlot_one hwords (hone hzero) (Nat.pos_of_ne_zero hpos), hzero,
        Nat.le_zero, Nat.div_eq_zero_iff] at hfootKv
      omega
  · exact Iff.rfl

/-! ## 3. The loads of a task -/

/-- No rank of a task has a load above its demand. -/
def LoadsBounded (st : State) : Prop :=
  ∀ tid ts, st.pool.lookup tid = some ts → ∀ kv ∈ ts.b_ir.entries, kv.2 ≤ ts.d_i

section

variable (h : LoadsBounded st)
include h

theorem LoadsBounded.insert {ts : TaskState} {ledger : Ledger}
    (hts : ∀ kv ∈ ts.b_ir.entries, kv.2 ≤ ts.d_i) :
    LoadsBounded { st with pool := st.pool.insert tid ts, ledger := ledger } := by
  intro tid' ts' hlook
  by_cases heq : tid' = tid
  · subst heq
    rw [AList.lookup_insert] at hlook
    obtain rfl := Option.some.inj hlook
    exact hts
  · rw [AList.lookup_insert_ne heq] at hlook
    exact h tid' ts' hlook

theorem scheduleTask_loads {slot : Nat}
    (hstep : scheduleTask cfg slot tid st = some (st', charges)) : LoadsBounded st' := by
  rcases scheduleTask_cases hstep with
    ⟨-, rfl, rfl⟩ | ⟨task, ledger, hlook, -, ⟨-, rfl⟩ | ⟨t, ledger', subs, -, -, -, -, -, -, rfl⟩⟩
  · exact h
  · exact h.insert (h tid task hlook)
  · exact h.insert (h tid task hlook)

theorem runScheduling_loads {order : List TaskId}
    (hrun : runScheduling cfg now order st = some (st', charges)) : LoadsBounded st' := by
  induction order generalizing st charges with
  | nil =>
    obtain ⟨rfl, rfl⟩ := Prod.mk.inj (Option.some.inj hrun)
    exact h
  | cons tid rest ih =>
    obtain ⟨st₁, new, more, hstep, hrest, rfl⟩ := runScheduling_cons hrun
    exact ih (scheduleTask_loads h hstep) hrest

theorem reportReady_loads {task : MoeTask} :
    LoadsBounded (reportReady cfg rank task now st) := by
  refine h.insert fun kv hkv => ?_
  -- the entry the report starts from has its loads bounded, new or old
  obtain ⟨ts, hts, hb, hd⟩ : ∃ ts : TaskState, (∀ kv ∈ ts.b_ir.entries, kv.2 ≤ ts.d_i) ∧
      (reportedTask cfg rank task now st).b_ir = ts.b_ir.insert rank (localLoad rank task) ∧
      (reportedTask cfg rank task now st).d_i = max ts.d_i (localLoad rank task) := by
    unfold reportedTask
    cases hlook : st.pool.lookup task.taskId with
    | none => exact ⟨_, by simp, rfl, rfl⟩
    | some ts => exact ⟨ts, h _ ts hlook, rfl, rfl⟩
  rw [hb, AList.entries_insert] at hkv
  rw [hd]
  rcases mem_cons.mp hkv with rfl | hold
  · exact le_max_right _ _
  · exact (hts kv ((kerase_sublist _ _).subset hold)).trans (le_max_left _ _)

end

theorem reachable_loads {w : World} (h : Reachable cfg w) : LoadsBounded w.state := by
  induction h with
  | init => simp [LoadsBounded, World.init, State.init]
  | call _ _ hstep ih =>
    rcases checkAdmission_cases hstep with ⟨-, rfl, -, rfl⟩ | ⟨-, rfl, rfl, -⟩ |
      ⟨st₁, -, -, -, -, hpass, rfl, -⟩
    · exact ih
    · exact reportReady_loads ih
    · have hloads : LoadsBounded st₁ := runScheduling_loads (reportReady_loads ih) hpass
      exact hloads

/-! ## 4. A task's turn in a pass -/

/-- The search of a task that starts at `slot` is not empty and finds the window
at `slot` inside the ledger. -/
def InReach (cfg : Config) (slot : Nat) (ledger : Ledger) (task : TaskState) : Prop :=
  let span := spanOf cfg task.d_i
  slot < u32 (slot + searchHorizon cfg span) ∧
  u32 (slot + span) < max ledger.length (u32 (slot + searchHorizon cfg span + span + 1000))

/-- Task `tid` is scheduled, from the start of `slot` on. -/
def ScheduledAt (cfg : Config) (slot : Nat) (tid : TaskId) (st : State) : Prop :=
  ∃ ts, st.pool.lookup tid = some ts ∧ ts.scheduled = true ∧ ts.allowedTime = slot * cfg.deltaT

/-- Where every slot has the same room, the search selects its first slot or
none at all. -/
theorem searchSlot_unloaded {d_i span : Nat} {b_ir : List (Sigma fun _ : Rank => Nat)}
    {stop t : Nat} {ledger ledger' : Ledger} {found : Option Nat} {fits : Prop} (hspan : 0 < span)
    (hroom : ∀ s, t ≤ s → (Room cfg d_i span b_ir ledger s ↔ fits))
    (h : searchSlot cfg d_i span b_ir stop t ledger = some (found, ledger')) :
    found = some t ↔ t < stop ∧ u32 (t + span) < ledger.length ∧ fits := by
  constructor
  · rintro rfl
    obtain ⟨-, hfound⟩ := searchSlot_spec h
    obtain ⟨-, hlt, hwindow, -⟩ := hfound t rfl
    refine ⟨hlt, ?_, (hroom t (Nat.le_refl _)).mp (hwindow t (Nat.le_refl _) (by omega)).2⟩
    rw [searchSlot, if_pos hlt] at h
    split at h
    · simp at h
    · next hlen => exact Nat.not_le.mp hlen
  · rintro ⟨hlt, hlen, hfits⟩
    rw [searchSlot, if_pos hlt, if_neg (Nat.not_le.mpr hlen)] at h
    split at h
    · exact absurd h (by simp)
    · obtain ⟨rfl, -⟩ := Prod.mk.inj (Option.some.inj h)
      rfl
    · next off ledger₁ hcheck =>
      obtain ⟨-, -, hfail⟩ := checkWindow_spec hcheck
      exact absurd ((hroom (t + off) (Nat.le_add_right _ _)).mpr hfits) (hfail off rfl).2

theorem scheduleTask_unloaded {slot : Nat} (htask : st.pool.lookup tid = some task)
    (hns : task.scheduled = false)
    (hfree : ∀ s, slot ≤ s → globalFree cfg st.ledger s = cfg.globalLimit ∧
      ∀ r, rankFree cfg st.ledger s r = cfg.rankLimit)
    (h : scheduleTask cfg slot tid st = some (st', charges)) :
    ScheduledAt cfg slot tid st' ↔ InReach cfg slot st.ledger task ∧
      task.d_i / spanOf cfg task.d_i ≤ cfg.globalLimit ∧
      ∀ kv ∈ task.b_ir.entries, kv.2 / spanOf cfg task.d_i ≤ cfg.rankLimit := by
  unfold scheduleTask at h
  simp only [htask] at h
  generalize hgrow : grow cfg (u32 (slot + searchHorizon cfg (spanOf cfg task.d_i) +
    spanOf cfg task.d_i + 1000)) st.ledger = ledger at h
  obtain ⟨hglobal, hrank⟩ := hgrow ▸ grow_free cfg _ st.ledger
  have hlen : ledger.length = max st.ledger.length (u32 (slot +
      searchHorizon cfg (spanOf cfg task.d_i) + spanOf cfg task.d_i + 1000)) := by
    rw [← hgrow, grow, length_append, length_replicate]
    omega
  have hroom : ∀ s, slot ≤ s → (Room cfg task.d_i (spanOf cfg task.d_i) task.b_ir.entries ledger s
      ↔ task.d_i / spanOf cfg task.d_i ≤ cfg.globalLimit ∧
        ∀ kv ∈ task.b_ir.entries, kv.2 / spanOf cfg task.d_i ≤ cfg.rankLimit) := by
    intro s hs
    obtain ⟨hg, hr⟩ := hfree s hs
    simp only [Room, hglobal, hrank, hg, hr]
  have hreach : InReach cfg slot st.ledger task ↔
      slot < u32 (slot + searchHorizon cfg (spanOf cfg task.d_i)) ∧
      u32 (slot + spanOf cfg task.d_i) < ledger.length := by
    rw [hlen]
    rfl
  rw [hreach, and_assoc]
  split at h
  · exact absurd h (by simp)
  · next ledger₁ hsearch =>
    rw [← searchSlot_unloaded (spanOf_pos cfg task.d_i) hroom hsearch]
    obtain ⟨rfl, -⟩ := Prod.mk.inj (Option.some.inj h)
    simp [ScheduledAt, hns]
  · next t ledger₁ hsearch =>
    rw [← searchSlot_unloaded (spanOf_pos cfg task.d_i) hroom hsearch]
    obtain ⟨rfl, -⟩ := Prod.mk.inj (Option.some.inj h)
    simp [ScheduledAt, cfg.deltaT_pos.ne']

theorem runScheduling_append (order₁ order₂ : List TaskId) (st : State) :
    runScheduling cfg now (order₁ ++ order₂) st =
      (runScheduling cfg now order₁ st).bind fun p =>
        (runScheduling cfg now order₂ p.1).map fun q => (q.1, q.2 ++ p.2) := by
  induction order₁ generalizing st with
  | nil => simp [runScheduling]
  | cons tid rest ih =>
    rw [cons_append, runScheduling, runScheduling]
    split
    · rfl
    next st₁ new hstep =>
    rw [ih]
    cases runScheduling cfg now rest st₁ with
    | none => rfl
    | some p => cases hp : runScheduling cfg now order₂ p.1 <;> simp [hp]

/-- A pass leaves the entries of the tasks it does not try alone. -/
theorem runScheduling_lookup_ne {order : List TaskId}
    (h : runScheduling cfg now order st = some (st', charges)) (htid : tid ∉ order) :
    st'.pool.lookup tid = st.pool.lookup tid := by
  induction order generalizing st charges with
  | nil =>
    obtain ⟨rfl, rfl⟩ := Prod.mk.inj (Option.some.inj h)
    rfl
  | cons tid' rest ih =>
    obtain ⟨st₁, new, more, hstep, hrest, rfl⟩ := runScheduling_cons h
    obtain ⟨hne, hnot⟩ := not_or.mp (mt mem_cons.mpr htid)
    rw [ih hrest hnot]
    exact scheduleTask_lookup_ne hstep hne

/-- The turn of task `tid` in the scheduling pass of a call, with no reservation
left at or after the current slot. `st` is the state in which the pass reaches
the task and `st'` the state after the pass. -/
structure UnloadedTurn (cfg : Config) (now : Rat) (tid : TaskId) (task : TaskState)
    (st st' : State) : Prop where
  turn : ∃ w rank mt pre post earlier charges, Reachable cfg w ∧
    Admissible cfg rank mt now (pre ++ tid :: post) w ∧
    runScheduling cfg now pre (reportReady cfg rank mt now w.state) = some (st, earlier) ∧
    runScheduling cfg now (pre ++ tid :: post) (reportReady cfg rank mt now w.state) =
      some (st', charges) ∧
    ∀ c ∈ earlier ++ w.charges, ∀ s, currentSlotIdx cfg now ≤ s → ¬ c.Covers s
  lookup : st.pool.lookup tid = some task

theorem UnloadedTurn.scheduledAt_iff (h : UnloadedTurn cfg now tid task st st') : LoadsBounded st ∧
    (ScheduledAt cfg (currentSlotIdx cfg now) tid st' ↔
      InReach cfg (currentSlotIdx cfg now) st.ledger task ∧
      task.d_i / spanOf cfg task.d_i ≤ cfg.globalLimit ∧
      ∀ kv ∈ task.b_ir.entries, kv.2 / spanOf cfg task.d_i ≤ cfg.rankLimit) := by
  obtain ⟨w, rank, mt, pre, post, earlier, charges, hw, hadm, hpre, hpass, hnone⟩ := h.turn
  have hnodup : (pre ++ tid :: post).Nodup := hadm.sorted.nodup (nodup_pendingTasks _ _)
  obtain ⟨hnodupPre, hnodupPost, hdisj⟩ := nodup_append.mp hnodup
  have hnotPre : tid ∉ pre := fun hmem => hdisj tid hmem tid mem_cons_self rfl
  have hpend : ∀ tid' ∈ pre ++ tid :: post, ∀ ts,
      (reportReady cfg rank mt now w.state).pool.lookup tid' = some ts → ts.scheduled = false := by
    intro tid' htid' ts hts
    obtain ⟨ts', hts', hns, -⟩ := mem_pendingTasks.mp (hadm.sorted.mem_iff.mp htid')
    rw [hts] at hts'
    exact Option.some.inj hts' ▸ hns
  have hacc := runScheduling_accounted (reportReady_accounted (reachable_accounted hw)) hnodupPre
    (fun tid' htid' => hpend tid' (mem_append_left _ htid')) hpre
  have hns : task.scheduled = false := hpend tid (by simp) task
    (runScheduling_lookup_ne hpre hnotPre ▸ h.lookup)
  have hfree : ∀ s, currentSlotIdx cfg now ≤ s → globalFree cfg st.ledger s = cfg.globalLimit ∧
      ∀ r, rankFree cfg st.ledger s r = cfg.rankLimit := by
    intro s hs
    have hzeroG : globalCharged (earlier ++ w.charges) s = 0 :=
      sum_eq_zero fun n hn => by
        obtain ⟨c, hc, rfl⟩ := mem_map.mp hn
        exact if_neg (hnone c hc s hs)
    have hzeroR : ∀ r, rankCharged (earlier ++ w.charges) s r = 0 := fun r =>
      sum_eq_zero fun n hn => by
        obtain ⟨c, hc, rfl⟩ := mem_map.mp hn
        exact if_neg (hnone c hc s hs)
    have hg := hacc.global s
    refine ⟨by omega, fun r => ?_⟩
    have hr := hacc.rank s r
    have := hzeroR r
    omega
  rw [runScheduling_append, hpre] at hpass
  obtain ⟨⟨st₂, more⟩, hrest, heq⟩ := Option.map_eq_some_iff.mp hpass
  obtain ⟨rfl, -⟩ := Prod.mk.inj heq
  obtain ⟨st₁, new, more', hstep, hpost, -⟩ := runScheduling_cons hrest
  refine ⟨runScheduling_loads (reportReady_loads (reachable_loads hw)) hpre, ?_⟩
  rw [← scheduleTask_unloaded h.lookup hns hfree hstep]
  simp only [ScheduledAt, runScheduling_lookup_ne hpost (nodup_cons.mp hnodupPost).1]

/-! ## 5. Exact condition -/

/-- A task whose turn comes with no reservation at or after the current slot is
scheduled for the current slot exactly when its slots lie within the ledger's
32 bits and its loads fit free slots: it has no demand, or ranks have a
positive limit, or no single rank carries the whole demand. Ranks have a
positive limit exactly from a scale factor of 8e-5 on. -/
theorem unloaded_admissibility {scaleFactor : Rat} {globalNodes : Nat} (hpos : 0 < scaleFactor)
    {now : Rat} {tid : TaskId} {task : TaskState} {st st' : State}
    (h : UnloadedTurn (construct scaleFactor globalNodes) now tid task st st') :
    (ScheduledAt (construct scaleFactor globalNodes)
        (currentSlotIdx (construct scaleFactor globalNodes) now) tid st' ↔
      InReach (construct scaleFactor globalNodes)
        (currentSlotIdx (construct scaleFactor globalNodes) now) st.ledger task ∧
      FitsUnloaded (construct scaleFactor globalNodes) task) ∧
    (100000000000 * scaleFactor < 2 ^ 64 →
      (1 ≤ (construct scaleFactor globalNodes).rankLimit ↔ 8 / 100000 ≤ scaleFactor)) := by
  obtain ⟨hloads, hiff⟩ := h.scheduledAt_iff
  refine ⟨?_, rankLimit_pos_iff globalNodes hpos⟩
  rw [hiff, fitsUnloaded_iff (hloads tid task h.lookup)]

/-- The first call of a run, by the one rank of a small task, gives the task its
turn on an empty ledger. -/
theorem solo_turn (cfg : Config) (bytes : Nat) (hcfg : cfg.horizon = 100000) (hpos : 0 < bytes)
    (hle : bytes ≤ 20000) :
    ∃ st', UnloadedTurn cfg 0 7 (reportedTask cfg rank (soloTask bytes) 0 (State.init cfg))
      (reportReady cfg rank (soloTask bytes) 0 (State.init cfg)) st' := by
  have hpass : (runScheduling cfg 0 [7]
      (reportReady cfg rank (soloTask bytes) 0 (State.init cfg))).isSome :=
    runScheduling_isSome (nodup_singleton 7) (fun tid htid => solo_fits hcfg hpos hle tid htid)
  obtain ⟨⟨st', charges⟩, hpass⟩ := Option.isSome_iff_exists.mp hpass
  exact ⟨st', ⟨World.init cfg, rank, soloTask bytes, [], [], [], charges, .init,
    solo_admissible cfg bytes, rfl, hpass, fun c hc => nomatch hc⟩, AList.lookup_insert _⟩

theorem solo_inReach (hcfg : cfg.horizon = 100000) (hpos : 0 < bytes) (hle : bytes ≤ 20000) :
    InReach cfg (currentSlotIdx cfg 0) (State.init cfg).ledger
      (reportedTask cfg rank (soloTask bytes) 0 (State.init cfg)) := by
  have hspan : spanOf cfg bytes ≤ bytes := spanOf_le hpos
  have hslot : currentSlotIdx cfg 0 = 0 := by simp [currentSlotIdx, u32]
  have hhor : searchHorizon cfg (spanOf cfg bytes) = 100000 := by
    rw [searchHorizon, if_pos (by omega), hcfg]
  simp only [InReach, hslot, solo_d_i cfg (show bytes < 2 ^ 64 by omega), hhor]
  rw [u32_of_lt (by omega), u32_of_lt (by omega), u32_of_lt (by omega)]
  omega

theorem unloaded_admissibility_solo : ∃ st',
    UnloadedTurn (construct 1 2) 0 7
      (reportedTask (construct 1 2) 0 (soloTask 20000) 0 (State.init (construct 1 2)))
      (reportReady (construct 1 2) 0 (soloTask 20000) 0 (State.init (construct 1 2))) st' ∧
    ScheduledAt (construct 1 2) (currentSlotIdx (construct 1 2) 0) 7 st' := by
  obtain ⟨st', hturn⟩ := solo_turn (construct 1 2) 20000 rfl (by decide) (by decide)
  obtain ⟨hiff, hscale⟩ := unloaded_admissibility (by norm_num) hturn
  refine ⟨st', hturn, hiff.mpr ⟨solo_inReach rfl (by decide) (by decide), ?_⟩⟩
  have hlimit : 1 ≤ (construct 1 2).rankLimit := (hscale (by norm_num)).mpr (by norm_num)
  unfold FitsUnloaded
  rw [solo_d_i _ (by decide), if_pos]
  · exact Or.inr (Or.inl hlimit)
  · exact Nat.lt_of_le_of_lt (ceilDiv_le_self (by decide) (construct 1 2).rSlot_pos) (by decide)

/-- At a scale factor of 1e-5 a task of one byte finds no slot on an empty
ledger. -/
theorem unloaded_inadmissible : ∃ st',
    UnloadedTurn (construct (1 / 100000) 1) 0 7
      (reportedTask (construct (1 / 100000) 1) 0 (soloTask 1) 0
        (State.init (construct (1 / 100000) 1)))
      (reportReady (construct (1 / 100000) 1) 0 (soloTask 1) 0
        (State.init (construct (1 / 100000) 1))) st' ∧
    ¬ ScheduledAt (construct (1 / 100000) 1) (currentSlotIdx (construct (1 / 100000) 1) 0) 7 st' := by
  obtain ⟨st', hturn⟩ := solo_turn (construct (1 / 100000) 1) 1 rfl (by decide) (by decide)
  refine ⟨st', hturn, fun hsched => ?_⟩
  obtain ⟨-, hiff⟩ := hturn.scheduledAt_iff
  obtain ⟨-, -, hranks⟩ := hiff.mp hsched
  have hlimit : (construct (1 / 100000) 1).rankLimit = 0 := by
    have hiff : 1 ≤ (construct (1 / 100000) 1).rankLimit ↔ (8 / 100000 : Rat) ≤ 1 / 100000 :=
      rankLimit_pos_iff 1 (by norm_num) (by norm_num)
    have hnot := mt hiff.mp (by norm_num)
    omega
  have hspan : spanOf (construct (1 / 100000) 1) 1 ≤ 1 := spanOf_le (by decide)
  have hfoot := hranks ⟨0, 1⟩ List.mem_cons_self
  rw [hlimit, solo_d_i _ (by decide), Nat.le_zero, Nat.div_eq_zero_iff] at hfoot
  have := spanOf_pos (construct (1 / 100000) 1) 1
  simp only at hfoot
  omega

end MoeJit.Centralized
