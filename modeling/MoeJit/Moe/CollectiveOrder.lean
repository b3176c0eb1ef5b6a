import MoeJit.Lib.FifoNet
import MoeJit.Lib.StdSort
import MoeJit.Moe.Task
import Mathlib.Tactic.FinCases

/-!
# Collective order

The schedulers of `moe-jit.h` order the task list of each rank, and the ranks
run `AllToAllV` for their tasks in that order, over untagged FIFO byte streams.
The order is computed by each rank from its own list, and `SJFScheduler` sorts
by what the rank itself sends. Two ranks can so run the same tasks in different
orders, and then read each other's bytes for the wrong task.

`collective_order` shows what is needed for the ranks to agree: one order of the
task ids that the sort keys of every rank follow strictly, and flows that are
neither empty nor cut by the 32-bit packet size. `collective_order_mismatch` is
a run of `SJFScheduler` that ends with both ranks blocked.
-/

namespace MoeJit.CollectiveOrder

open Words StdSort FifoNet

/-! ## 1. Schedulers -/

/-- The scheduler classes of `moe-jit.h`. -/
inductive SchedulerClass
  | base
  | sjf
  | fcfs
  | distributedAdmission
  | fixedProb
  | centralizedAdmission

/-- The comparator that `Schedule` sorts with, if the class sorts. -/
def less : SchedulerClass → Option (MoeTask → MoeTask → Prop)
  | .sjf => some fun a b => a.getTotalBytes < b.getTotalBytes
  | .fcfs | .distributedAdmission | .fixedProb => some fun a b => a.startTime < b.startTime
  | .base | .centralizedAdmission => none

/-- `order` is a result of `Schedule` for `tasks`. -/
def Schedule (c : SchedulerClass) (tasks order : List MoeTask) : Prop :=
  match less c with
  | some lt => IsSortOf lt tasks order
  | none => order = tasks

/-! ## 2. AllToAllV -/

/-- A byte of a fake message: the task it was sent for and its place in the
message. No receiver reads either. -/
abbrev Byte := TaskId × Nat

/-- The packet a rank sends a peer for a task. `Create<Packet>` keeps 32 bits of
the size. -/
def packet (tid : TaskId) (size : Nat) : List Byte := (List.range (u32 size)).map fun k => (tid, k)

/-- `AllToAllV` of one task: all sends and receives at once, each rank's map of
sizes giving the peers. -/
def allToAllV (n : Nat) : Algo (Fin n) Byte Unit MoeTask where
  out _ _ task q := (task.sendFlows.lookup q.val).elim [] (packet task.taskId)
  need _ _ task q := task.expectedRecvFlows.lookup q.val
  next _ _ _ _ := ()

/-! ## 3. Families of task lists -/

/-- The task of a list with an id. -/
def taskOf (tasks : List MoeTask) (tid : TaskId) : Option MoeTask :=
  tasks.find? fun task => task.taskId = tid

/-- The task lists of `n` ranks: the ids of a list are distinct, flows go to
ranks of the run, and what one rank sends another for a task is what the other
expects for it. -/
structure Family (n : Nat) where
  tasks : Fin n → List MoeTask
  nodup : ∀ p, ((tasks p).map (·.taskId)).Nodup
  peers : ∀ p, ∀ task ∈ tasks p, (∀ q ∈ task.sendFlows, q < n) ∧
    ∀ q ∈ task.expectedRecvFlows, q < n
  matched : ∀ p q tid, ((taskOf (tasks p) tid).bind fun task => task.sendFlows.lookup q.val) =
    (taskOf (tasks q) tid).bind fun task => task.expectedRecvFlows.lookup p.val

/-- The order `pos` of the task ids is followed strictly by the sort key on
every rank, or by the list itself where the class does not sort. -/
def KeysFollow {n : Nat} (c : SchedulerClass) (F : Family n) (pos : TaskId → Nat) : Prop :=
  match less c with
  | some lt => ∀ p, ∀ a ∈ F.tasks p, ∀ b ∈ F.tasks p, pos a.taskId < pos b.taskId → lt a b
  | none => ∀ p, (F.tasks p).Pairwise fun a b => pos a.taskId < pos b.taskId

/-- Every flow is positive and fits the packet size. -/
def FlowsFit {n : Nat} (F : Family n) : Prop :=
  ∀ p, ∀ task ∈ F.tasks p, ∀ q bytes, task.sendFlows.lookup q = some bytes →
    0 < bytes ∧ bytes < 2 ^ 32

section

variable {n : Nat} {F : Family n}

theorem taskOf_of_mem {p : Fin n} {task : MoeTask} (h : task ∈ F.tasks p) :
    taskOf (F.tasks p) task.taskId = some task := by
  obtain ⟨task', htask'⟩ : ∃ task', taskOf (F.tasks p) task.taskId = some task' :=
    Option.isSome_iff_exists.mp (List.find?_isSome.mpr ⟨task, h, decide_eq_true rfl⟩)
  have hmem := List.mem_of_find?_eq_some htask'
  have hid : task'.taskId = task.taskId := by simpa using List.find?_some htask'
  rw [htask', List.inj_on_of_nodup_map (F.nodup p) hmem h hid]

theorem mem_of_taskOf {p : Fin n} {tid : TaskId} {task : MoeTask}
    (h : taskOf (F.tasks p) tid = some task) : task ∈ F.tasks p ∧ task.taskId = tid :=
  ⟨List.mem_of_find?_eq_some h, by simpa using List.find?_some h⟩

variable {c : SchedulerClass} {orders : Fin n → List MoeTask}

theorem mem_order (h : ∀ p, Schedule c (F.tasks p) (orders p)) {p : Fin n} {task : MoeTask} :
    task ∈ orders p ↔ task ∈ F.tasks p := by
  have hp := h p
  unfold Schedule at hp
  split at hp
  · exact hp.mem_iff
  · rw [hp]

/-- Where the keys follow an order of the task ids, the schedule does. -/
theorem pairwise_order {pos : TaskId → Nat} (hinj : Function.Injective pos)
    (hkeys : KeysFollow c F pos) (h : ∀ p, Schedule c (F.tasks p) (orders p)) (p : Fin n) :
    (orders p).Pairwise fun a b => pos a.taskId < pos b.taskId := by
  have hp := h p
  unfold Schedule at hp
  unfold KeysFollow at hkeys
  split at hp
  · next lt hlt =>
    rw [hlt] at hkeys
    refine hp.pairwise_key ?_ (hkeys p)
    have hnodup := (F.nodup p).map hinj
    rwa [List.map_map] at hnodup
  · next hnone =>
    rw [hnone] at hkeys
    rw [hp]
    exact hkeys p

/-! ## 4. Agreement -/

/-- What rank `q` sends rank `p` for a task, with all its bytes. -/
def message (F : Family n) (q p : Fin n) (tid : TaskId) : List Byte :=
  ((taskOf (F.tasks q) tid).bind fun task => task.sendFlows.lookup p.val).elim [] fun size =>
    (List.range size).map fun k => (tid, k)

/-- The ranks of a family as a system of rounds, labelled by the order of the
task ids. -/
def system (orders : Fin n → List MoeTask) (pos : TaskId → Nat)
    (hsorted : ∀ p, (orders p).Pairwise fun a b => pos a.taskId < pos b.taskId) :
    System (Fin n) Byte Unit MoeTask where
  algo := allToAllV n
  prog := orders
  start _ := ()
  lab task := pos task.taskId
  bound := ∑ p, ((orders p).map fun task => pos task.taskId).sum + 1
  sorted := hsorted
  lab_lt p task htask := by
    have hlist : pos task.taskId ≤ ((orders p).map fun task => pos task.taskId).sum :=
      List.le_sum_of_mem (List.mem_map_of_mem htask)
    have hsum : ((orders p).map fun task => pos task.taskId).sum ≤
        ∑ p, ((orders p).map fun task => pos task.taskId).sum :=
      Finset.single_le_sum (f := fun p => ((orders p).map fun task => pos task.taskId).sum)
        (fun _ _ => Nat.zero_le _) (Finset.mem_univ p)
    omega

variable {pos : TaskId → Nat}
  {hsorted : ∀ p, (orders p).Pairwise fun a b => pos a.taskId < pos b.taskId}

section

variable (hinj : Function.Injective pos) (hsched : ∀ p, Schedule c (F.tasks p) (orders p))
  (hflows : FlowsFit F)
include hinj hsched hflows

omit hflows in
/-- A rank runs its task with an id in the round with the label of it. -/
theorem roundAt_pos (tid : TaskId) (q : Fin n) :
    (system orders pos hsorted).roundAt q (pos tid) = taskOf (F.tasks q) tid := by
  refine Option.ext fun task => System.roundAt_eq_some.trans
    ⟨fun ⟨hmem, hlab⟩ => ?_, fun htask => ?_⟩
  · obtain rfl : task.taskId = tid := hinj hlab
    exact taskOf_of_mem ((mem_order hsched).mp hmem)
  · obtain ⟨hmem, rfl⟩ := mem_of_taskOf htask
    exact ⟨(mem_order hsched).mpr hmem, rfl⟩

/-- In lock step a rank writes what it sends its peers for the task with the
label. -/
theorem outAt_eq_message (tid : TaskId) (q p : Fin n) :
    (system orders pos hsorted).outAt (pos tid) q p = message F q p tid := by
  have hround : (system orders pos hsorted).roundAt q (pos tid) = _ :=
    roundAt_pos hinj hsched tid q
  rw [message]
  cases htask : taskOf (F.tasks q) tid with
  | none => exact System.outAt_of_none (hround.trans htask) p
  | some task =>
    obtain ⟨hmem, rfl⟩ := mem_of_taskOf htask
    rw [System.outAt_of_some (hround.trans htask), Option.bind_some]
    change (task.sendFlows.lookup p.val).elim [] (packet task.taskId) = _
    cases hsize : task.sendFlows.lookup p.val with
    | none => rfl
    | some size =>
      obtain ⟨-, hlt⟩ := hflows q task hmem p.val size hsize
      simp only [Option.elim_some, packet, u32_of_lt hlt]

theorem aligned : (system orders pos hsorted).Aligned where
  answers t p q := by
    -- some task has the label, or no rank has a round with it
    by_cases htid : ∃ tid, pos tid = t
    · obtain ⟨tid, rfl⟩ := htid
      rw [outAt_eq_message hinj hsched hflows]
      have hneed : (system orders pos hsorted).needAt (pos tid) p q =
          (taskOf (F.tasks p) tid).bind fun task => task.expectedRecvFlows.lookup q.val := by
        rw [System.needAt, roundAt_pos hinj hsched]
        rfl
      rw [hneed, ← F.matched q p tid, message]
      cases htask : taskOf (F.tasks q) tid with
      | none => exact rfl
      | some task =>
        obtain ⟨hmem, -⟩ := mem_of_taskOf htask
        rw [Option.bind_some]
        cases hsize : task.sendFlows.lookup p.val with
        | none => exact rfl
        | some size =>
          exact ⟨(hflows q task hmem p.val size hsize).1, by simp⟩
    · have hnone : ∀ p, (system orders pos hsorted).roundAt p t = none := by
        intro p
        cases hround : (system orders pos hsorted).roundAt p t with
        | none => rfl
        | some task => exact absurd ⟨task.taskId, (System.roundAt_eq_some.mp hround).2⟩ htid
      rw [System.outAt_of_none (hnone q), System.needAt, hnone p]
      exact rfl

end

end

/-- Where the sort keys of all ranks strictly follow one order of the task ids,
and the flows are positive and fit the packet size, two ranks run the tasks they
share in the same order. In every run each rank reads for a task only the bytes
its peers sent for it, a complete receive has all of them, some rank can go on
as long as one has tasks left, and every run can be continued to the end. -/
theorem collective_order {n : Nat} {c : SchedulerClass} {F : Family n} {pos : TaskId → Nat}
    (hinj : Function.Injective pos) (hkeys : KeysFollow c F pos) (hflows : FlowsFit F)
    {orders : Fin n → List MoeTask} (hsched : ∀ p, Schedule c (F.tasks p) (orders p)) :
    (∀ p q t₁ t₂, [t₁, t₂].Sublist ((orders p).map (·.taskId)) →
      t₁ ∈ (orders q).map (·.taskId) → t₂ ∈ (orders q).map (·.taskId) →
      [t₁, t₂].Sublist ((orders q).map (·.taskId))) ∧
    ∀ cap : Fin n → Fin n → ℕ∞, (∀ p q, 0 < cap p q) →
      ∀ w, Run (allToAllV n) cap (Net.init orders fun _ => ()) w →
        (∀ p task rest, (w.node p).todo = task :: rest → ∀ q,
          (w.node p).got q <+: message F q p task.taskId ∧
          (Served (task.expectedRecvFlows.lookup q.val) ((w.node p).got q) →
            (w.node p).got q = message F q p task.taskId)) ∧
        (¬ Finished w → ∃ w', Step (allToAllV n) cap w w') ∧
        ∃ w', Run (allToAllV n) cap w w' ∧ Finished w' := by
  have hsorted := pairwise_order hinj hkeys hsched
  have hal : (system orders pos hsorted).Aligned := aligned hinj hsched hflows
  refine ⟨fun p q t₁ t₂ hsub h₁ h₂ => ?_, fun cap hcap w hrun => ?_⟩
  · have hids : ∀ p, ((orders p).map (·.taskId)).Pairwise fun t t' => pos t < pos t' := fun p =>
      List.pairwise_map.mpr (hsorted p)
    exact pair_sublist_of_pairwise (hids q) h₁ h₂ ((hids p).forall_sublist hsub)
  · have hinv : Inv (system orders pos hsorted) w := Reachable.inv hal hrun
    refine ⟨fun p task rest htodo q => ?_, progress hal hcap hinv, exists_finished hal hcap hinv⟩
    have hpre := hinv.got_prefix p q
    have hserved := hinv.got_eq_of_served (j := q) hal htodo
    rw [htodo] at hpre hserved
    have hout : (system orders pos hsorted).outAt (pos task.taskId) q p =
        message F q p task.taskId := outAt_eq_message hinj hsched hflows task.taskId q p
    rw [← hout]
    exact ⟨hpre, hserved⟩

/-! ## 5. Two ranks -/

/-- A task in which a rank exchanges `out` and `back` bytes with one peer. -/
def exchange (tid : TaskId) (peer : Rank) (out back : Nat) : MoeTask where
  taskId := tid
  startTime := 0
  sendFlows := AList.singleton peer out
  expectedRecvFlows := AList.singleton peer back
  computationTime := 0
  groupSize := 2

/-- Two ranks with two tasks: in the first rank 0 sends `a` bytes and rank 1
`b`, in the second rank 0 sends `c` bytes and rank 1 `d`. -/
def twoRanks (a b c d : Nat) : Family 2 where
  tasks p := if p = 0 then [exchange 1 1 a b, exchange 2 1 c d]
    else [exchange 1 0 b a, exchange 2 0 d c]
  nodup p := by fin_cases p <;> simp [exchange]
  peers p task htask := by
    fin_cases p <;> simp [exchange] at htask <;> rcases htask with rfl | rfl <;>
      simp [AList.mem_keys]
  matched p q tid := by
    by_cases h₁ : tid = 1
    · subst h₁
      fin_cases p <;> fin_cases q <;> simp [taskOf, exchange] <;> rfl
    · by_cases h₂ : tid = 2
      · subst h₂
        fin_cases p <;> fin_cases q <;> simp [taskOf, exchange] <;> rfl
      · fin_cases p <;> fin_cases q <;>
          simp [taskOf, exchange, Ne.symm h₁, Ne.symm h₂]

theorem getTotalBytes_exchange {tid : TaskId} {peer : Rank} {out back : Nat} (h : out < 2 ^ 64) :
    (exchange tid peer out back).getTotalBytes = out := by
  have hsum : (exchange tid peer out back).getTotalBytes = u64 (0 + out) := rfl
  rw [hsum, Nat.zero_add, u64_of_lt h]

theorem collective_order_twoRanks :
    (∀ p, Schedule .sjf ((twoRanks 1 1 2 2).tasks p) ((twoRanks 1 1 2 2).tasks p)) ∧
    ∀ w, Run (allToAllV 2) (fun _ _ => 1) (Net.init (twoRanks 1 1 2 2).tasks fun _ => ()) w →
      ¬ Finished w → ∃ w', Step (allToAllV 2) (fun _ _ => 1) w w' := by
  have hkeys : KeysFollow .sjf (twoRanks 1 1 2 2) id := by
    intro p a ha b hb hab
    fin_cases p <;> simp [twoRanks] at ha hb <;>
      rcases ha with rfl | rfl <;> rcases hb with rfl | rfl <;>
      simp [exchange] at hab <;> decide
  have hflows : FlowsFit (twoRanks 1 1 2 2) := by
    intro p task htask q bytes hlookup
    have hmem := AList.mem_lookup_iff.mp hlookup
    fin_cases p <;> simp [twoRanks] at htask <;> rcases htask with rfl | rfl <;>
      simp [exchange] at hmem <;> obtain ⟨-, rfl⟩ := hmem <;> decide
  have hsched : ∀ p, Schedule .sjf ((twoRanks 1 1 2 2).tasks p) ((twoRanks 1 1 2 2).tasks p) := by
    intro p
    refine ⟨List.Perm.refl _, ?_⟩
    fin_cases p <;> simp [twoRanks, getTotalBytes_exchange]
  exact ⟨hsched, fun w hrun => ((collective_order Function.injective_id hkeys hflows hsched).2 _
    (fun _ _ => by simp) w hrun).2.1⟩

/-- Two ranks that have each sent their only byte for different tasks, and read
one of the two they wait for, are blocked. -/
theorem blocked {cap : Fin 2 → Fin 2 → ℕ∞} {w : Net (Fin 2) Byte Unit MoeTask}
    (h₀ : (w.node 0).todo.head? = some (exchange 1 1 1 2))
    (h₁ : (w.node 1).todo.head? = some (exchange 2 0 1 2))
    (hsent₀ : (w.node 0).sent 1 = 1) (hsent₁ : (w.node 1).sent 0 = 1)
    (hgot₀ : ((w.node 0).got 1).length = 1) (hgot₁ : ((w.node 1).got 0).length = 1)
    (hchan : ∀ p q, w.chan p q = []) : ∀ w', ¬ Step (allToAllV 2) cap w w' := by
  intro w' hstep
  have htwo : ∀ p : Fin 2, p = 0 ∨ p = 1 := by decide
  cases hstep with
  | @send p q r rest v htodo hv _ =>
    rcases htwo p with rfl | rfl
    · obtain rfl : r = exchange 1 1 1 2 := by simpa [htodo] using h₀
      rcases htwo q with rfl | rfl
      · have hv' : ([] : List Byte)[(w.node 0).sent 0]? = some v := hv
        simp at hv'
      · rw [hsent₀] at hv
        have hv' : ([(1, 0)] : List Byte)[1]? = some v := hv
        simp at hv'
    · obtain rfl : r = exchange 2 0 1 2 := by simpa [htodo] using h₁
      rcases htwo q with rfl | rfl
      · rw [hsent₁] at hv
        have hv' : ([(2, 0)] : List Byte)[1]? = some v := hv
        simp at hv'
      · have hv' : ([] : List Byte)[(w.node 1).sent 1]? = some v := hv
        simp at hv'
  | recv _ _ _ h =>
    rw [hchan] at h
    exact absurd h (by simp)
  | recvAny _ _ _ h hne =>
    rw [hchan] at h
    exact hne (List.append_eq_nil_iff.mp h.symm).1
  | recvRest _ htail _ _ _ _ => cases htail
  | @finish p r rest htodo _ hserved =>
    rcases htwo p with rfl | rfl
    · obtain rfl : r = exchange 1 1 1 2 := by simpa [htodo] using h₀
      have hlen : ((w.node 0).got 1).length = 2 := hserved 1
      omega
    · obtain rfl : r = exchange 2 0 1 2 := by simpa [htodo] using h₁
      have hlen : ((w.node 1).got 0).length = 2 := hserved 0
      omega

/-- Rank 0 sends one byte for the first task and two for the second, rank 1 the
other way round. Sorted by what they send, each rank starts with the task that
the other runs second, and both are blocked. -/
theorem collective_order_mismatch : ∃ orders : Fin 2 → List MoeTask,
    (∀ p, Schedule .sjf ((twoRanks 1 2 2 1).tasks p) (orders p)) ∧
    (orders 0).map (·.taskId) = [1, 2] ∧ (orders 1).map (·.taskId) = [2, 1] ∧
    ∃ w, Run (allToAllV 2) (fun _ _ => ⊤) (Net.init orders fun _ => ()) w ∧
      (∀ p, (w.node p).todo = orders p) ∧ (w.node 0).got 1 = [(2, 0)] ∧
      (w.node 1).got 0 = [(1, 0)] ∧ ∀ w', ¬ Step (allToAllV 2) (fun _ _ => ⊤) w w' := by
  refine ⟨fun p => if p = 0 then [exchange 1 1 1 2, exchange 2 1 2 1]
    else [exchange 2 0 1 2, exchange 1 0 2 1], ?_, rfl, rfl, ?_⟩
  · intro p
    fin_cases p
    · exact ⟨List.Perm.refl _, by simp [getTotalBytes_exchange]⟩
    · exact ⟨List.Perm.swap _ _ _, by simp [getTotalBytes_exchange]⟩
  · refine ⟨_, .tail (.tail (.tail (.tail .refl
      (.send (i := 0) (j := 1) rfl rfl (by simp)))
      (.send (i := 1) (j := 0) rfl rfl (by simp)))
      (.recv (i := 0) (j := 1) rfl rfl (by decide) rfl))
      (.recv (i := 1) (j := 0) rfl rfl (by decide) rfl), ?_, ?_, ?_, ?_⟩
    · intro p
      fin_cases p <;> rfl
    · rfl
    · rfl
    · refine blocked rfl rfl rfl rfl rfl rfl fun p q => ?_
      fin_cases p <;> fin_cases q <;> rfl

end MoeJit.CollectiveOrder
