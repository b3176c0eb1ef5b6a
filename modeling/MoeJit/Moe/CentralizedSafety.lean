import MoeJit.Moe.CentralizedAdmissibility

/-!
# Admission safety of the centralized scheduler

What a rank may rely on when `CheckAdmission` lets it start a task. The runs are
those of `Reachable`, with the calls made so far (`Trace`), since a quorum is
about calls of the past.

* `Quorate`: the ranks that count as ready have called, and a scheduled task has
  a quorum of them.
* `Settled`: what a later state keeps of a scheduled task.
-/

namespace MoeJit.Centralized

open Words StdSort List

/-! ## 1. Traces -/

/-- A call `CheckAdmission(rank, task)` at time `now`. -/
structure Call where
  rank : Rank
  task : MoeTask
  now : Rat

/-- The call is for task `tid` and does not come before the start time. -/
def Call.Reports (c : Call) (tid : TaskId) : Prop := c.task.taskId = tid ∧ c.task.startTime ≤ c.now

instance (c : Call) (tid : TaskId) : Decidable (c.Reports tid) :=
  inferInstanceAs (Decidable (_ ∧ _))

/-- A run so far: its calls, the latest first, and where it got. -/
structure Trace where
  calls : List Call
  world : World

def Trace.init (cfg : Config) : Trace := ⟨[], World.init cfg⟩

inductive Trace.Step (cfg : Config) : Trace → Trace → Prop
  | call {h : Trace} {rank : Rank} {task : MoeTask} {now : Rat} {order : List TaskId} {st : State}
      {ret : Bool} {new : List Charge} :
      Admissible cfg rank task now order h.world →
      checkAdmission cfg rank task now order h.world.state = some (st, ret, new) →
      Step cfg h ⟨⟨rank, task, now⟩ :: h.calls, ⟨st, new ++ h.world.charges, now⟩⟩

abbrev Trace.Run (cfg : Config) : Trace → Trace → Prop := Relation.ReflTransGen (Trace.Step cfg)

variable {cfg : Config} {h h' : Trace} {tid : TaskId} {calls : List Call} {ts : TaskState}
  {rank : Rank} {now : Rat} {st st' : State} {charges : List Charge} {order : List TaskId}

theorem Trace.Run.reachable (hrun : Trace.Run cfg h h') (hreach : Reachable cfg h.world) :
    Reachable cfg h'.world := by
  induction hrun with
  | refl => exact hreach
  | tail _ hstep ih =>
    cases hstep with
    | call hadm hcall => exact .call ih hadm hcall

/-- The group size that the first report of a task brought. -/
def groupSizeOf (calls : List Call) (tid : TaskId) : Option Nat :=
  (calls.reverse.find? fun c => c.Reports tid).map fun c => c.task.groupSize

/-- The number of ranks that a task with this group size waits for. -/
def quorum (cfg : Config) (groupSize : Nat) : Nat :=
  if 0 < groupSize then groupSize else cfg.globalNodes

theorem groupSizeOf_cons (c : Call) (calls : List Call) (tid : TaskId) :
    groupSizeOf (c :: calls) tid = (groupSizeOf calls tid).or
      (if c.Reports tid then some c.task.groupSize else none) := by
  rw [groupSizeOf, reverse_cons, find?_append, Option.map_or]
  congr 1
  rw [find?_singleton]
  split <;> simp_all

theorem groupSizeOf_cons_of_not {c : Call} (h : ¬ c.Reports tid) (calls : List Call) :
    groupSizeOf (c :: calls) tid = groupSizeOf calls tid := by
  rw [groupSizeOf_cons, if_neg h, Option.or_none]

/-! ## 2. The quorum of a task -/

/-- The entry of a task is backed by the calls. -/
structure Backed (cfg : Config) (calls : List Call) (tid : TaskId) (ts : TaskState) : Prop where
  ready : ∀ r ∈ ts.readyTimes.keys, ∃ c ∈ calls, c.rank = r ∧ c.Reports tid
  groupSize : groupSizeOf calls tid = some ts.groupSize
  quorum : ts.scheduled = true → quorum cfg ts.groupSize ≤ ts.readyTimes.keys.length

/-- Every entry is backed, and a task without one has had no report. -/
def Quorate (cfg : Config) (calls : List Call) (st : State) : Prop :=
  ∀ tid, (st.pool.lookup tid).elim (groupSizeOf calls tid = none) (Backed cfg calls tid)

theorem Backed.mono (h : Backed cfg calls tid ts) (c : Call) : Backed cfg (c :: calls) tid ts where
  ready r hr := by
    obtain ⟨c', hc', hrep⟩ := h.ready r hr
    exact ⟨c', mem_cons_of_mem c hc', hrep⟩
  groupSize := by rw [groupSizeOf_cons, h.groupSize, Option.some_or]
  quorum := h.quorum

theorem length_keys_insert_ge (times : AList fun _ : Rank => Rat) (r : Rank) (t : Rat) :
    times.keys.length ≤ (times.insert r t).keys.length := by
  rw [AList.keys_insert, length_cons]
  exact Nat.le_succ_of_pred_le (le_length_erase)

theorem reportReady_quorate {task : MoeTask} (h : Quorate cfg calls st)
    (hnow : task.startTime ≤ now) :
    Quorate cfg (⟨rank, task, now⟩ :: calls) (reportReady cfg rank task now st) := by
  intro tid
  rcases eq_or_ne tid task.taskId with rfl | hne
  · have hself : (⟨rank, task, now⟩ : Call).Reports task.taskId := ⟨rfl, hnow⟩
    have hold := h task.taskId
    rw [reportReady, AList.lookup_insert, Option.elim_some]
    unfold reportedTask
    cases hlook : st.pool.lookup task.taskId with
    | none =>
      rw [hlook] at hold
      refine ⟨fun r hr => ?_, ?_, fun hsch => absurd hsch Bool.false_ne_true⟩
      · rw [Option.getD_none, AList.keys_insert] at hr
        rcases mem_cons.mp hr with rfl | hr
        · exact ⟨_, mem_cons_self, rfl, hself⟩
        · exact absurd (mem_of_mem_erase hr) not_mem_nil
      · rw [groupSizeOf_cons, show groupSizeOf calls task.taskId = none from hold, if_pos hself]
        rfl
    | some ts =>
      rw [hlook] at hold
      have hback : Backed cfg (⟨rank, task, now⟩ :: calls) task.taskId ts := Backed.mono hold _
      refine ⟨fun r hr => ?_, hback.groupSize, fun hsch =>
        (hback.quorum hsch).trans (length_keys_insert_ge _ _ _)⟩
      rw [Option.getD_some, AList.keys_insert] at hr
      rcases mem_cons.mp hr with rfl | hr
      · exact ⟨_, mem_cons_self, rfl, hself⟩
      · exact hback.ready r (mem_of_mem_erase hr)
  · have hold := h tid
    rw [reportReady, AList.lookup_insert_ne hne]
    cases hlook : st.pool.lookup tid with
    | none =>
      rw [hlook] at hold
      exact (groupSizeOf_cons_of_not (fun hrep => hne hrep.1.symm) calls).trans hold
    | some ts =>
      rw [hlook] at hold
      exact Backed.mono hold _

/-- What a pass does to the entry of a task that it tries. -/
structure Tried (ts ts' : TaskState) : Prop where
  readyTimes : ts'.readyTimes = ts.readyTimes
  groupSize : ts'.groupSize = ts.groupSize

theorem scheduleTask_tried {slot : Nat} (h : scheduleTask cfg slot tid st = some (st', charges))
    (hts : st.pool.lookup tid = some ts) :
    ∃ ts', st'.pool.lookup tid = some ts' ∧ Tried ts ts' := by
  rcases scheduleTask_cases h with
    ⟨hnone, -, -⟩ | ⟨task, ledger, hlook, -, ⟨-, rfl⟩ | ⟨t, ledger', subs, -, -, -, -, -, -, rfl⟩⟩
  · rw [hts] at hnone
    cases hnone
  all_goals
    obtain rfl : task = ts := Option.some.inj (hlook.symm.trans hts)
    exact ⟨_, AList.lookup_insert _, rfl, rfl⟩

theorem runScheduling_tried (h : runScheduling cfg now order st = some (st', charges))
    (hnodup : order.Nodup) (htid : tid ∈ order) (hts : st.pool.lookup tid = some ts) :
    ∃ ts', st'.pool.lookup tid = some ts' ∧ Tried ts ts' := by
  induction order generalizing st charges with
  | nil => cases htid
  | cons tid₀ rest ih =>
    obtain ⟨st₁, new, more, hstep, hrest, rfl⟩ := runScheduling_cons h
    obtain ⟨hnot, hnodup'⟩ := nodup_cons.mp hnodup
    cases htid with
    | head =>
      rw [runScheduling_lookup_ne hrest hnot]
      exact scheduleTask_tried hstep hts
    | tail _ hmem =>
      have hne : tid ≠ tid₀ := fun heq => hnot (heq ▸ hmem)
      exact ih hrest hnodup' hmem ((scheduleTask_lookup_ne hstep hne).trans hts)

/-- A pass schedules only tasks that have their quorum. -/
theorem runScheduling_quorate (hq : Quorate cfg calls st)
    (hsort : IsSortOf (pendingLt st) (pendingTasks cfg st) order)
    (h : runScheduling cfg now order st = some (st', charges)) : Quorate cfg calls st' := by
  intro tid
  rcases em (tid ∈ order) with htid | htid
  · obtain ⟨ts, hts, -, hready⟩ := mem_pendingTasks.mp (hsort.mem_iff.mp htid)
    obtain ⟨ts', hts', htried⟩ := runScheduling_tried h
      (hsort.nodup (nodup_pendingTasks cfg st)) htid hts
    have hold := hq tid
    rw [hts] at hold
    rw [hts', Option.elim_some]
    refine ⟨?_, ?_, fun _ => ?_⟩
    · rw [htried.readyTimes]
      exact hold.ready
    · rw [htried.groupSize]
      exact hold.groupSize
    · have hle : targetQuorum cfg ts ≤ ts.readyTimes.entries.length := of_decide_eq_true hready
      rw [htried.readyTimes, htried.groupSize, AList.keys, List.keys, length_map]
      exact hle
  · rw [runScheduling_lookup_ne h htid]
    exact hq tid

theorem step_quorate (hq : Quorate cfg h.calls h.world.state) (hstep : Trace.Step cfg h h') :
    Quorate cfg h'.calls h'.world.state := by
  cases hstep with
  | @call rank task now order st ret new hadm hcall =>
    rcases checkAdmission_cases hcall with ⟨hearly, rfl, -, -⟩ | ⟨hnow, rfl, -, -⟩ |
      ⟨st₁, hnow, -, -, -, hpass, rfl, -⟩
    · intro tid
      have hnot : ¬ (⟨rank, task, now⟩ : Call).Reports tid :=
        fun hrep => absurd hrep.2 (not_le.mpr hearly)
      have hold := hq tid
      show (h.world.state.pool.lookup tid).elim _ _
      cases hlook : h.world.state.pool.lookup tid with
      | none =>
        rw [hlook] at hold
        exact (groupSizeOf_cons_of_not hnot h.calls).trans hold
      | some ts =>
        rw [hlook] at hold
        exact Backed.mono hold _
    · exact reportReady_quorate hq hnow
    · have hpassed : Quorate cfg (⟨rank, task, now⟩ :: h.calls) st₁ :=
        runScheduling_quorate (reportReady_quorate hq hnow) hadm.sorted hpass
      exact hpassed

theorem run_quorate (hrun : Trace.Run cfg (Trace.init cfg) h) :
    Quorate cfg h.calls h.world.state := by
  induction hrun with
  | refl => exact fun tid => rfl
  | tail _ hstep ih => exact step_quorate ih hstep

/-! ## 3. Scheduled tasks stay as they are -/

/-- What a scheduled task has is what it had in `w`. -/
def Settled (w w' : World) : Prop :=
  ∀ tid ts, w.state.pool.lookup tid = some ts → ts.scheduled = true →
    (∃ ts', w'.state.pool.lookup tid = some ts' ∧ ts'.scheduled = true ∧
      ts'.allowedTime = ts.allowedTime ∧ ts'.span = ts.span) ∧
    ∀ c : Charge, c.taskId = tid → (c ∈ w'.charges ↔ c ∈ w.charges)

theorem Settled.refl (w : World) : Settled w w :=
  fun _ ts hts hsch => ⟨⟨ts, hts, hsch, rfl, rfl⟩, fun _ _ => Iff.rfl⟩

theorem Settled.trans {w₁ w₂ w₃ : World} (h₁₂ : Settled w₁ w₂) (h₂₃ : Settled w₂ w₃) :
    Settled w₁ w₃ := by
  intro tid ts hts hsch
  obtain ⟨⟨ts₂, hts₂, hsch₂, hat₂, hspan₂⟩, hc₂⟩ := h₁₂ tid ts hts hsch
  obtain ⟨⟨ts₃, hts₃, hsch₃, hat₃, hspan₃⟩, hc₃⟩ := h₂₃ tid ts₂ hts₂ hsch₂
  exact ⟨⟨ts₃, hts₃, hsch₃, hat₃.trans hat₂, hspan₃.trans hspan₂⟩,
    fun c hc => (hc₃ c hc).trans (hc₂ c hc)⟩

theorem reportReady_settled (cfg : Config) (rank : Rank) (task : MoeTask) (now : Rat)
    (hts : st.pool.lookup tid = some ts) (hsch : ts.scheduled = true) :
    ∃ ts', (reportReady cfg rank task now st).pool.lookup tid = some ts' ∧
      ts'.scheduled = true ∧ ts'.allowedTime = ts.allowedTime ∧ ts'.span = ts.span := by
  rcases eq_or_ne tid task.taskId with rfl | hne
  · refine ⟨_, AList.lookup_insert _, ?_⟩
    unfold reportedTask
    rw [hts]
    exact ⟨hsch, rfl, rfl⟩
  · exact ⟨ts, (AList.lookup_insert_ne hne).trans hts, hsch, rfl, rfl⟩

theorem step_settled (hreach : Reachable cfg h.world) (hstep : Trace.Step cfg h h') :
    Settled h.world h'.world := by
  cases hstep with
  | @call rank task now order st ret new hadm hcall =>
    have hacc := reachable_accounted hreach
    have hacc' := checkAdmission_accounted hacc hadm hcall
    intro tid ts hts hsch
    refine ⟨?_, fun c hc => ⟨fun hmem => ?_, fun hmem => mem_append_right new hmem⟩⟩
    · rcases checkAdmission_cases hcall with ⟨-, rfl, -, -⟩ | ⟨-, rfl, -, -⟩ |
        ⟨st₁, -, -, -, -, hpass, rfl, -⟩
      · exact ⟨ts, hts, hsch, rfl, rfl⟩
      · exact reportReady_settled cfg rank task now hts hsch
      · obtain ⟨ts', hts', hsch', hrest⟩ := reportReady_settled cfg rank task now hts hsch
        -- the pass tries tasks that are not scheduled yet
        have hnot : tid ∉ order := by
          intro hmem
          obtain ⟨ts₀, hts₀, hns, -⟩ := mem_pendingTasks.mp (hadm.sorted.mem_iff.mp hmem)
          obtain rfl : ts' = ts₀ := Option.some.inj (hts'.symm.trans hts₀)
          rw [hsch'] at hns
          cases hns
        exact ⟨ts', (runScheduling_lookup_ne hpass hnot).trans hts', hsch', hrest⟩
    · -- a new reservation would be the second one of its task
      refine (mem_append.mp hmem).resolve_left fun hnew => ?_
      obtain ⟨c₀, hc₀, hid⟩ := mem_map.mp ((hacc.charged tid ts hts).mp hsch)
      have hnodup := hacc'.nodup
      rw [map_append] at hnodup
      exact (nodup_append.mp hnodup).2.2 tid (hc ▸ mem_map_of_mem hnew) tid
        (hid ▸ mem_map_of_mem hc₀) rfl

theorem run_settled (hreach : Reachable cfg h.world) (hrun : Trace.Run cfg h h') :
    Settled h.world h'.world := by
  induction hrun with
  | refl => exact Settled.refl _
  | tail hrun hstep ih => exact ih.trans (step_settled (Trace.Run.reachable hrun hreach) hstep)

/-! ## 4. Admission -/

theorem jitter_nonneg (rank : Rank) : 0 ≤ jitter rank := by
  unfold jitter
  positivity

/-- A call that admits its rank leaves the task scheduled, and its time has
come. -/
theorem scheduled_of_admitted {task : MoeTask} {new : List Charge}
    (h : checkAdmission cfg rank task now order st = some (st', true, new)) :
    task.startTime ≤ now ∧ ∃ ts, st'.pool.lookup task.taskId = some ts ∧
      ts.scheduled = true ∧ ts.allowedTime ≤ now := by
  rcases checkAdmission_cases h with ⟨-, -, hret, -⟩ |
    ⟨hnow, rfl, -, ⟨hsch, hret⟩ | ⟨-, hret⟩⟩ | ⟨st₁, hnow, -, -, -, hpass, rfl, hret⟩
  · cases hret
  · refine ⟨hnow, _, AList.lookup_insert _, hsch, ?_⟩
    have hjitter := of_decide_eq_true hret.symm
    exact (le_add_of_nonneg_right (jitter_nonneg rank)).trans hjitter
  · cases hret
  · obtain ⟨ts, hts, hboth⟩ := (Option.any_eq_true _ _).mp hret.symm
    obtain ⟨hsch, hat⟩ := Bool.and_eq_true_iff.mp hboth
    exact ⟨hnow, ts, hts, hsch, of_decide_eq_true hat⟩

/-- A quorum of distinct ranks has called for the task, each not before the
start time it passed. The quorum is that of the group size which the first of
these calls brought. -/
def QuorumCalled (cfg : Config) (calls : List Call) (tid : TaskId) : Prop :=
  ∃ ranks : List Rank, ∃ groupSize : Nat, ranks.Nodup ∧ groupSizeOf calls tid = some groupSize ∧
    quorum cfg groupSize ≤ ranks.length ∧ ∀ r ∈ ranks, ∃ c ∈ calls, c.rank = r ∧ c.Reports tid

/-- In every run: a call that returns true comes at or after the start time of
the task, a quorum of distinct ranks has called for the task, and the task holds
a reservation of a window whose first slot has come. What a scheduled task has,
its reservation and its allowed time, is the same in every later state. -/
theorem admission_safety {cfg : Config} {h : Trace} (hrun : Trace.Run cfg (Trace.init cfg) h) :
    (∀ rank task now order st new, Admissible cfg rank task now order h.world →
      checkAdmission cfg rank task now order h.world.state = some (st, true, new) →
      task.startTime ≤ now ∧
      QuorumCalled cfg (⟨rank, task, now⟩ :: h.calls) task.taskId ∧
      ∃ c ∈ new ++ h.world.charges, c.taskId = task.taskId ∧ c.start * cfg.deltaT ≤ now) ∧
    ∀ h', Trace.Run cfg h h' → Settled h.world h'.world := by
  have hreach := Trace.Run.reachable hrun .init
  refine ⟨fun rank task now order st new hadm hcall => ?_, fun h' hrun' => run_settled hreach hrun'⟩
  obtain ⟨hnow, ts, hts, hsch, hat⟩ := scheduled_of_admitted hcall
  have hstep : Trace.Step cfg h _ := .call hadm hcall
  refine ⟨hnow, ?_, ?_⟩
  · have hback := step_quorate (run_quorate hrun) hstep task.taskId
    simp only at hback
    rw [hts] at hback
    exact ⟨ts.readyTimes.keys, ts.groupSize, ts.readyTimes.nodupKeys, hback.groupSize,
      hback.quorum hsch, hback.ready⟩
  · have hacc := checkAdmission_accounted (reachable_accounted hreach) hadm hcall
    obtain ⟨c, hc, hid⟩ := List.mem_map.mp ((hacc.charged _ ts hts).mp hsch)
    obtain ⟨ts', hts', -, hstart⟩ := hacc.window c hc
    rw [hid, hts] at hts'
    obtain rfl := Option.some.inj hts'
    exact ⟨c, hc, hid, hstart ▸ hat⟩

/-- The pass of the first call schedules the one small task for slot 0. -/
theorem solo_scheduled {bytes : Nat} {new : List Charge} (hpos : 0 < bytes) (hle : bytes ≤ 20000)
    (h : runScheduling (construct 1 2) 0 [7]
      (reportReady (construct 1 2) rank (soloTask bytes) 0 (State.init (construct 1 2))) =
        some (st, new)) : ScheduledAt (construct 1 2) (currentSlotIdx (construct 1 2) 0) 7 st := by
  have hturn : UnloadedTurn (construct 1 2) 0 7
      (reportedTask (construct 1 2) rank (soloTask bytes) 0 (State.init (construct 1 2)))
      (reportReady (construct 1 2) rank (soloTask bytes) 0 (State.init (construct 1 2))) st :=
    ⟨⟨World.init (construct 1 2), rank, soloTask bytes, [], [], [], new, .init,
      solo_admissible (construct 1 2) bytes, rfl, h, fun c hc => nomatch hc⟩, AList.lookup_insert _⟩
  obtain ⟨hloads, hiff⟩ := hturn.scheduledAt_iff
  rw [hiff, ← fitsUnloaded_iff (hloads 7 _ (AList.lookup_insert _))]
  refine ⟨solo_inReach rfl hpos hle, ?_⟩
  have hlimit : 1 ≤ (construct 1 2).rankLimit :=
    (rankLimit_pos_iff 2 (by norm_num) (by norm_num)).mpr (by norm_num)
  unfold FitsUnloaded
  rw [solo_d_i _ (hle.trans_lt (by decide)), if_pos]
  · exact Or.inr (Or.inl hlimit)
  · exact (ceilDiv_le_self hpos (construct 1 2).rSlot_pos).trans_lt (hle.trans_lt (by decide))

theorem solo_admitted (rank : Rank) {bytes : Nat} (hpos : 0 < bytes) (hle : bytes ≤ 20000) :
    ∃ st new, checkAdmission (construct 1 2) rank (soloTask bytes) 0 [7]
      (State.init (construct 1 2)) = some (st, true, new) := by
  have hpass : (runScheduling (construct 1 2) 0 [7]
      (reportReady (construct 1 2) rank (soloTask bytes) 0 (State.init (construct 1 2)))).isSome :=
    runScheduling_isSome (nodup_singleton 7) (fun tid htid => solo_fits rfl hpos hle tid htid)
  obtain ⟨⟨st, new⟩, hpass⟩ := Option.isSome_iff_exists.mp hpass
  obtain ⟨ts, hts, hsch, hat⟩ := solo_scheduled hpos hle hpass
  refine ⟨{ st with lastRunTime := 0 }, new, ?_⟩
  unfold checkAdmission
  rw [if_neg (show ¬ (0 : Rat) < (soloTask bytes).startTime from lt_irrefl 0)]
  simp only [hpass]
  rw [if_neg (show ¬ (reportedTask (construct 1 2) rank (soloTask bytes) 0
    (State.init (construct 1 2))).scheduled = true from Bool.false_ne_true), if_pos]
  · have htime : ts.allowedTime ≤ 0 := by simp [hat, currentSlotIdx, u32]
    have hlook : st.pool.lookup (soloTask bytes).taskId = some ts := hts
    rw [hlook, Option.any_some, hsch, decide_eq_true htime]
    rfl
  · simp [quorumReady, targetQuorum, reportedTask, soloTask, State.init, reportReady]

theorem admission_safety_solo : ∃ st new,
    checkAdmission (construct 1 2) 0 (soloTask 20000) 0 [7] (State.init (construct 1 2)) =
      some (st, true, new) ∧ ∃ c ∈ new, c.taskId = 7 ∧ c.start * (construct 1 2).deltaT ≤ 0 := by
  obtain ⟨st, new, hcall⟩ := solo_admitted 0 (by decide : 0 < 20000) (by decide)
  obtain ⟨-, -, c, hc, hid, hstart⟩ := (admission_safety .refl).1 0 (soloTask 20000) 0 [7] st new
    (solo_admissible (construct 1 2) 20000) hcall
  exact ⟨st, new, hcall, c, by simpa [Trace.init, World.init] using hc, hid, hstart⟩

/-- After a call that returned true the first slot of the reservation decides every later call for
the task, of any rank in any run, and these calls reserve nothing. -/
theorem admission_lasts {cfg : Config} {h : Trace} (hreach : Reachable cfg h.world) {rank : Rank}
    {task : MoeTask} {now : Rat} {order : List TaskId} {st : State} {new : List Charge}
    (hadm : Admissible cfg rank task now order h.world)
    (hcall : checkAdmission cfg rank task now order h.world.state = some (st, true, new)) :
    ∃ c ∈ new ++ h.world.charges, c.taskId = task.taskId ∧ c.start * cfg.deltaT ≤ now ∧
      ∀ h', Trace.Run cfg ⟨⟨rank, task, now⟩ :: h.calls, ⟨st, new ++ h.world.charges, now⟩⟩ h' →
        ∀ rank' task' now' order', task'.taskId = task.taskId → task'.startTime ≤ now' →
          ∃ st', checkAdmission cfg rank' task' now' order' h'.world.state =
            some (st', decide (c.start * cfg.deltaT + jitter rank' ≤ now'), []) := by
  obtain ⟨-, ts, hts, hsch, hat⟩ := scheduled_of_admitted hcall
  have hreach' : Reachable cfg ⟨st, new ++ h.world.charges, now⟩ := .call hreach hadm hcall
  have hacc := reachable_accounted hreach'
  obtain ⟨c, hc, hid⟩ := List.mem_map.mp ((hacc.charged _ ts hts).mp hsch)
  obtain ⟨ts₀, hts₀, -, hstart⟩ := hacc.window c hc
  rw [hid, hts] at hts₀
  obtain rfl := Option.some.inj hts₀
  refine ⟨c, hc, hid, hstart ▸ hat, fun h' hrun rank' task' now' order' htask hnow => ?_⟩
  obtain ⟨⟨ts', hts', hsch', hat', -⟩, -⟩ := run_settled hreach' hrun task.taskId ts hts hsch
  refine ⟨reportReady cfg rank' task' now' h'.world.state, ?_⟩
  have hreported : (reportedTask cfg rank' task' now' h'.world.state).scheduled = true ∧
      (reportedTask cfg rank' task' now' h'.world.state).allowedTime = c.start * cfg.deltaT := by
    unfold reportedTask
    rw [htask, hts']
    exact ⟨hsch', hat'.trans hstart⟩
  unfold checkAdmission
  rw [if_neg (not_lt.mpr hnow)]
  dsimp only
  rw [if_pos hreported.1, hreported.2]

/-- Rank 1 is admitted after the task was, 400 microseconds into its slot. -/
theorem admission_lasts_solo : ∃ st new st',
    checkAdmission (construct 1 2) 0 (soloTask 20000) 0 [7] (State.init (construct 1 2)) =
      some (st, true, new) ∧
    checkAdmission (construct 1 2) 1 (soloTask 20000) (400 / 1000000) [] st =
      some (st', true, []) := by
  obtain ⟨st, new, hcall⟩ := solo_admitted 0 (by decide : 0 < 20000) (by decide)
  obtain ⟨c, -, -, hstart, hlater⟩ := admission_lasts (h := .init _) .init
    (solo_admissible (construct 1 2) 20000) hcall
  obtain ⟨st', hcall'⟩ := hlater _ .refl 1 (soloTask 20000) (400 / 1000000) [] rfl
    (by norm_num [soloTask])
  have hturn : c.start * (construct 1 2).deltaT + jitter 1 ≤ 400 / 1000000 := by
    have hjitter : jitter 1 = 400 / 1000000 := by norm_num [jitter]
    linarith
  rw [decide_eq_true hturn] at hcall'
  exact ⟨st, new, st', hcall, hcall'⟩

end MoeJit.Centralized
