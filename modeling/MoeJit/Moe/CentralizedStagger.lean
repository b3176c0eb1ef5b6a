import MoeJit.Moe.CentralizedSafety

/-!
# The stagger of the ranks of a scheduled task

`CheckAdmission` returns at two points when the task of the call is scheduled. A rank of a task that
an earlier call has scheduled waits for its turn (`jitter`). The rank whose call completes the
quorum and schedules the task does not wait. So a run keeps the stagger when these calls come from
ranks that have no jitter (`stagger_holds`).
-/

namespace MoeJit.Centralized

open Words StdSort

/-- A call that returned true. -/
structure Admission where
  rank : Rank
  taskId : TaskId
  now : Rat

/-- The states of runs in which all calls meet a condition, with the calls that returned true. -/
inductive Admitting (cfg : Config) (guard : World → Rank → MoeTask → Rat → Prop) :
    World → List Admission → Prop
  | init : Admitting cfg guard (World.init cfg) []
  | call {w : World} {admissions : List Admission} {rank : Rank} {task : MoeTask} {now : Rat}
      {order : List TaskId} {st : State} {ret : Bool} {new : List Charge} :
      Admitting cfg guard w admissions → guard w rank task now →
      Admissible cfg rank task now order w →
      checkAdmission cfg rank task now order w.state = some (st, ret, new) →
      Admitting cfg guard ⟨st, new ++ w.charges, now⟩
        (if ret then ⟨rank, task.taskId, now⟩ :: admissions else admissions)

/-- The task of the call is scheduled, and the turn of the rank had come when it was admitted. -/
def InTurn (st : State) (a : Admission) : Prop :=
  ∃ ts, st.pool.lookup a.taskId = some ts ∧ ts.scheduled = true ∧
    ts.allowedTime + jitter a.rank ≤ a.now

/-- The call has the scheduling run while its own task is pending. -/
def Completes (cfg : Config) (w : World) (rank : Rank) (task : MoeTask) (now : Rat) : Prop :=
  task.startTime ≤ now ∧ (reportedTask cfg rank task now w.state).scheduled = false ∧
    quorumReady cfg (reportedTask cfg rank task now w.state) = true ∧ w.state.lastRunTime < now

/-- If the call completes the quorum of its task, its rank is one that need not wait. -/
def TurnCome (cfg : Config) (w : World) (rank : Rank) (task : MoeTask) (now : Rat) : Prop :=
  Completes cfg w rank task now → rank % 32 = 0

variable {cfg : Config} {w : World}

theorem Admitting.reachable {guard : World → Rank → MoeTask → Rat → Prop}
    {admissions : List Admission} (h : Admitting cfg guard w admissions) : Reachable cfg w := by
  induction h with
  | init => exact .init
  | call _ _ hadm hcall ih => exact .call ih hadm hcall

/-- A scheduled task keeps its time, and so an admission stays in turn. -/
theorem InTurn.mono {w' : World} (hsettled : Settled w w') {a : Admission} (h : InTurn w.state a) :
    InTurn w'.state a := by
  obtain ⟨ts, hts, hsch, hturn⟩ := h
  obtain ⟨⟨ts', hts', hsch', hat, -⟩, -⟩ := hsettled a.taskId ts hts hsch
  exact ⟨ts', hts', hsch', hat ▸ hturn⟩

theorem allowedTime_slot (h : Reachable cfg w) {tid : TaskId} {ts : TaskState}
    (hts : w.state.pool.lookup tid = some ts) (hsch : ts.scheduled = true) :
    ∃ s : Nat, ts.allowedTime = s * cfg.deltaT := by
  have hacc := reachable_accounted h
  obtain ⟨c, hc, hid⟩ := List.mem_map.mp ((hacc.charged tid ts hts).mp hsch)
  obtain ⟨ts', hts', -, hstart⟩ := hacc.window c hc
  rw [hid, hts] at hts'
  cases hts'
  exact ⟨_, hstart⟩

theorem jitter_eq_zero {rank : Rank} (h : rank % 32 = 0) : jitter rank = 0 := by
  rw [jitter, h, Nat.cast_zero, zero_mul]

theorem inTurn_of_admitted {rank : Rank} {task : MoeTask} {now : Rat} {order : List TaskId}
    {st : State} {new : List Charge} (hguard : TurnCome cfg w rank task now)
    (h : checkAdmission cfg rank task now order w.state = some (st, true, new)) :
    InTurn st ⟨rank, task.taskId, now⟩ := by
  rcases checkAdmission_cases h with ⟨-, -, hret, -⟩ |
    ⟨hnow, rfl, -, ⟨hsch, hret⟩ | ⟨-, hret⟩⟩ | ⟨st₁, hnow, hns, hq, hlast, hpass, rfl, hret⟩
  · cases hret
  · exact ⟨_, AList.lookup_insert _, hsch, of_decide_eq_true hret.symm⟩
  · cases hret
  · -- this call schedules its own task, and only the allowed time is looked at
    obtain ⟨ts, hts, hboth⟩ := (Option.any_eq_true _ _).mp hret.symm
    obtain ⟨hsch, hat⟩ := Bool.and_eq_true_iff.mp hboth
    refine ⟨ts, hts, hsch, ?_⟩
    rw [jitter_eq_zero (hguard ⟨hnow, hns, hq, hlast⟩), add_zero]
    exact of_decide_eq_true hat

/-- In every run in which only ranks without jitter complete a quorum, every rank is admitted in its
turn. -/
theorem stagger_holds {cfg : Config} {w : World} {admissions : List Admission}
    (h : Admitting cfg (TurnCome cfg) w admissions) : ∀ a ∈ admissions, InTurn w.state a := by
  induction h with
  | init => exact fun a ha => absurd ha List.not_mem_nil
  | @call w admissions rank task now order st ret new hrun hguard hadm hcall ih =>
    have hstep : Trace.Step cfg ⟨[], w⟩ ⟨[⟨rank, task, now⟩], ⟨st, new ++ w.charges, now⟩⟩ :=
      .call hadm hcall
    have hsettled := step_settled hrun.reachable hstep
    have hkept : ∀ a ∈ admissions, InTurn st a := fun a ha => (ih a ha).mono hsettled
    cases ret with
    | false => exact hkept
    | true =>
      exact List.forall_mem_cons.mpr ⟨inTurn_of_admitted hguard hcall, hkept⟩

/-- A run of the one task has nothing left to schedule once a rank is admitted. -/
theorem solo_pending {rank rank' : Rank} {bytes : Nat} {now : Rat} {st : State} {new : List Charge}
    (h : checkAdmission (construct 1 2) rank (soloTask bytes) 0 [7] (State.init (construct 1 2)) =
      some (st, true, new)) :
    pendingTasks (construct 1 2) (reportReady (construct 1 2) rank' (soloTask bytes) now st) =
      [] := by
  obtain ⟨-, ts, hts, hsch, -⟩ := scheduled_of_admitted h
  refine List.eq_nil_iff_forall_not_mem.mpr fun tid htid => ?_
  obtain ⟨ts', hts', hns, -⟩ := mem_pendingTasks.mp htid
  rcases eq_or_ne tid 7 with rfl | hne
  · obtain ⟨ts₂, hts₂, hsch₂, -⟩ :=
      reportReady_settled (construct 1 2) rank' (soloTask bytes) now hts hsch
    obtain rfl := Option.some.inj (hts'.symm.trans hts₂)
    exact Bool.false_ne_true (hns.symm.trans hsch₂)
  · have hnone : st.pool.lookup tid = none := by
      rcases checkAdmission_cases h with ⟨-, rfl, -⟩ | ⟨-, rfl, -⟩ | ⟨st₁, -, -, -, -, hpass, rfl, -⟩
      · rfl
      · exact AList.lookup_insert_ne hne
      · have hnot : tid ∉ [7] := fun hmem => hne (List.mem_singleton.mp hmem)
        exact (runScheduling_lookup_ne hpass hnot).trans (AList.lookup_insert_ne hne)
    have hlook : st.pool.lookup tid = some ts' := (AList.lookup_insert_ne hne).symm.trans hts'
    cases hnone.symm.trans hlook

/-- A later call for the task that is scheduled waits for the turn of its rank. -/
theorem later_admitted (cfg : Config) {rank : Rank} {task : MoeTask} {now : Rat}
    (order : List TaskId) {st : State} {ts : TaskState} (hnow : task.startTime ≤ now)
    (hts : st.pool.lookup task.taskId = some ts) (hsch : ts.scheduled = true)
    (hturn : ts.allowedTime + jitter rank ≤ now) :
    (reportedTask cfg rank task now st).scheduled = true ∧
      checkAdmission cfg rank task now order st =
        some (reportReady cfg rank task now st, true, []) := by
  obtain ⟨ts', hts', hsch', hat', -⟩ := reportReady_settled cfg rank task now hts hsch
  obtain rfl : reportedTask cfg rank task now st = ts' :=
    Option.some.inj ((AList.lookup_insert _).symm.trans hts')
  refine ⟨hsch', ?_⟩
  unfold checkAdmission
  rw [if_neg (not_lt.mpr hnow)]
  dsimp only
  rw [if_pos hsch', hat', decide_eq_true hturn]

/-- Rank 0 schedules the task for slot 0, and rank 1 is admitted 400 microseconds later. -/
theorem stagger_holds_solo : ∃ w, Admitting (construct 1 2) (TurnCome (construct 1 2)) w
    [⟨1, 7, 400 / 1000000⟩, ⟨0, 7, 0⟩] ∧ InTurn w.state ⟨1, 7, 400 / 1000000⟩ := by
  obtain ⟨st, new, hcall⟩ := solo_admitted 0 (by decide : 0 < 20000) (by decide)
  obtain ⟨-, ts, hts, hsch, hat⟩ := scheduled_of_admitted hcall
  have hfirst : Admitting (construct 1 2) (TurnCome (construct 1 2)) _ [⟨0, 7, 0⟩] :=
    .call .init (fun _ => rfl) (solo_admissible (construct 1 2) 20000) hcall
  have hlate : (0 : Rat) ≤ 400 / 1000000 := by norm_num
  have hturn : ts.allowedTime + jitter 1 ≤ 400 / 1000000 := by
    have hjitter : jitter 1 = 400 / 1000000 := by norm_num [jitter]
    linarith
  obtain ⟨hsch', hcall'⟩ := later_admitted (construct 1 2) [] hlate hts hsch hturn
  have hadm : Admissible (construct 1 2) 1 (soloTask 20000) (400 / 1000000) []
      ⟨st, new ++ (World.init (construct 1 2)).charges, 0⟩ :=
    ⟨hlate, by rw [solo_pending hcall]; exact ⟨.refl _, .nil⟩⟩
  have hguard : TurnCome (construct 1 2) ⟨st, new ++ (World.init (construct 1 2)).charges, 0⟩ 1
      (soloTask 20000) (400 / 1000000) := by
    rintro ⟨-, hns, -⟩
    cases hns.symm.trans hsch'
  have hrun := hfirst.call hguard hadm hcall'
  exact ⟨_, hrun, stagger_holds hrun _ List.mem_cons_self⟩

/-- Rank 1 schedules its task for slot 0 and is admitted at once. -/
theorem early_solo : ∃ w, Admitting (construct 1 2) (fun _ _ _ _ => True) w [⟨1, 7, 0⟩] ∧
    ¬InTurn w.state ⟨1, 7, 0⟩ := by
  obtain ⟨st, new, hcall⟩ := solo_admitted 1 (by decide : 0 < 20000) (by decide)
  have hrun : Admitting (construct 1 2) (fun _ _ _ _ => True) _ [⟨1, 7, 0⟩] :=
    .call .init trivial (solo_admissible (construct 1 2) 20000) hcall
  refine ⟨_, hrun, ?_⟩
  rintro ⟨ts, hts, hsch, hturn⟩
  obtain ⟨s, hslot⟩ := allowedTime_slot hrun.reachable hts hsch
  have hpos : 0 ≤ ts.allowedTime :=
    hslot ▸ mul_nonneg (Nat.cast_nonneg _) (construct 1 2).deltaT_pos.le
  have hjitter : jitter 1 = 400 / 1000000 := by norm_num [jitter]
  have hzero : (ts.allowedTime + 400 / 1000000 : Rat) ≤ 0 := hjitter ▸ hturn
  linarith

end MoeJit.Centralized
