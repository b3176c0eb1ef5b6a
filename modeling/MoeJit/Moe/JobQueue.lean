import MoeJit.Lib.Buckets
import MoeJit.Lib.PriorityQueue
import Mathlib.Data.Prod.Lex
import Mathlib.Data.Rat.Defs

/-!
# The job queue

`Jobpq` of `dml-application.h`, where the applications announce the communication of a batch, and
`checkPQ`, which starts one that may start by now. The job with the least size is on top, and of
several the one that may start first.

`checkPQ_selects`: the least job among those that may start is taken, and the others stay.
`run_accounts`: over whole runs no job is lost or started twice. Both hold of any implementation of
the queue; `sortedQueue` is one.
-/

namespace MoeJit.JobQueue

open List

/-! ## 1. Model -/

/-- `coInfo`. -/
structure CoInfo where
  appId : Int
  batchId : Int
  comSize : Nat
  eTime : Nat := 0
  deriving DecidableEq

/-- `CompareByComSize`: `a` has the lower priority. -/
def CompareByComSize (a b : CoInfo) : Prop :=
  if a.comSize ≠ b.comSize then a.comSize > b.comSize else a.eTime > b.eTime

instance : DecidableRel CompareByComSize := fun _ _ => by
  unfold CompareByComSize
  infer_instance

/-- What `addCommunicateFunction` adds to an application. -/
structure CommunicateFunction where
  rank : Nat
  batchId : Int
  size : Nat
  scale_factor : Rat
  deriving DecidableEq

/-- The members of `DMLApplicationHelper` that are read: the ranks of its nodes and the sizes of the
batches in its trace. -/
structure DMLApplicationHelper where
  nodes : List Nat
  nodes_nodup : nodes.Nodup
  communication_size : Int → Nat

/-- The queue and the functions that were added, by rank and application. -/
structure State (Jobpq : PriorityQueue CoInfo CompareByComSize) where
  queue : Jobpq.Queue
  functions : Nat → Int → List CommunicateFunction

namespace DMLApplicationHelper

variable (helper : DMLApplicationHelper)

/-- `addCommunicateFunction`. -/
def addCommunicateFunction (batchId appId : Int) (scale_factor : Rat)
    (functions : Nat → Int → List CommunicateFunction) (rank : Nat) :
    Nat → Int → List CommunicateFunction :=
  let batch : CommunicateFunction := ⟨rank, batchId, helper.communication_size batchId, scale_factor⟩
  Function.update functions rank
    (Function.update (functions rank) appId (functions rank appId ++ [batch]))

def addCommunicateFunctions (batchId appId : Int) (scale_factor : Rat)
    (functions : Nat → Int → List CommunicateFunction) : Nat → Int → List CommunicateFunction :=
  helper.nodes.foldl (helper.addCommunicateFunction batchId appId scale_factor) functions

variable {Jobpq : PriorityQueue CoInfo CompareByComSize}

/-- The loop of `checkPQ` that takes jobs out, with `tempJobs` set aside. -/
def drained (curTime : Nat) (queue : Jobpq.Queue) : Jobpq.Drained :=
  Jobpq.drain (fun topJob => curTime ≥ topJob.eTime) (Jobpq.elements queue).length queue []

def checkPQ (curTime : Nat) (st : State Jobpq) : State Jobpq :=
  { queue := Jobpq.pushAll (drained curTime st.queue).queue (drained curTime st.queue).aside
    functions := match (drained curTime st.queue).found with
      | some targetJob =>
        helper.addCommunicateFunctions targetJob.batchId targetJob.appId (1 / 10000) st.functions
      | none => st.functions }

end DMLApplicationHelper

/-- What happens to the queue: a batch is announced, or `checkPQ` is called at some time. -/
inductive Act
  | push (job : CoInfo)
  | checkPQ (curTime : Nat)

/-- A step, with the job that is started. -/
def Act.step {Jobpq : PriorityQueue CoInfo CompareByComSize} (helper : DMLApplicationHelper) :
    Act → State Jobpq → Option CoInfo × State Jobpq
  | .push job, st => (none, { st with queue := Jobpq.push st.queue job })
  | .checkPQ curTime, st =>
    ((DMLApplicationHelper.drained curTime st.queue).found, helper.checkPQ curTime st)

/-- A run, with the jobs that are started in it. -/
def run {Jobpq : PriorityQueue CoInfo CompareByComSize} (helper : DMLApplicationHelper) :
    List Act → State Jobpq → List CoInfo × State Jobpq
  | [], st => ([], st)
  | act :: acts, st =>
    let (started, st) := act.step helper st
    let (rest, st) := run helper acts st
    (started.toList ++ rest, st)

/-! ## 2. Statement -/

/-- What the jobs are ordered by. -/
def CoInfo.key (job : CoInfo) : ℕ ×ₗ ℕ := toLex (job.comSize, job.eTime)

/-- A job that may start and is least among those that may. -/
def Selected (curTime : Nat) (jobs : List CoInfo) (job : CoInfo) : Prop :=
  job ∈ jobs ∧ job.eTime ≤ curTime ∧ ∀ other ∈ jobs, other.eTime ≤ curTime → job.key ≤ other.key

/-- Every node has the function for the job added to its application, and nothing else. -/
def Started (helper : DMLApplicationHelper) (job : CoInfo)
    (before after : Nat → Int → List CommunicateFunction) : Prop :=
  ∀ rank appId, after rank appId = before rank appId ++
    if rank ∈ helper.nodes ∧ appId = job.appId then
      [⟨rank, job.batchId, helper.communication_size job.batchId, 1 / 10000⟩] else []

/-! ## 3. Functions -/

theorem started_addCommunicateFunctions (helper : DMLApplicationHelper) (job : CoInfo)
    (functions : Nat → Int → List CommunicateFunction) :
    Started helper job functions
      (helper.addCommunicateFunctions job.batchId job.appId (1 / 10000) functions) := by
  unfold Started DMLApplicationHelper.addCommunicateFunctions
  have hnodup := helper.nodes_nodup
  generalize helper.nodes = nodes at hnodup
  intro rank appId
  induction nodes generalizing functions with
  | nil => exact (append_nil _).symm
  | cons node nodes ih =>
    obtain ⟨hnot, hrest⟩ := nodup_cons.mp hnodup
    rw [foldl_cons, ih _ hrest]
    unfold DMLApplicationHelper.addCommunicateFunction
    cases decEq rank node with
    | isTrue heq =>
      subst heq
      rw [if_neg fun h => hnot h.1, append_nil, Function.update_self]
      cases decEq appId job.appId with
      | isTrue happ =>
        subst happ
        rw [Function.update_self, if_pos ⟨mem_cons_self, rfl⟩]
      | isFalse happ => rw [Function.update_of_ne happ, if_neg fun h => happ h.2, append_nil]
    | isFalse hne =>
      rw [Function.update_of_ne hne]
      refine congrArg _ (if_congr (and_congr_left fun _ => ?_) rfl rfl)
      rw [mem_cons, or_iff_right hne]

theorem not_compareByComSize {a b : CoInfo} : ¬CompareByComSize a b ↔ a.key ≤ b.key := by
  unfold CompareByComSize CoInfo.key
  rw [Prod.Lex.toLex_le_toLex]
  split
  · next hne => omega
  · next heq => omega

/-! ## 4. Selection -/

variable {Jobpq : PriorityQueue CoInfo CompareByComSize}

/-- What the loop finds, and that the queue is the same but for that. -/
theorem checkPQ_spec (helper : DMLApplicationHelper) (curTime : Nat) (st : State Jobpq) :
    (∀ job, (DMLApplicationHelper.drained curTime st.queue).found = some job →
      Selected curTime (Jobpq.elements st.queue) job ∧
      (Jobpq.elements st.queue).Perm (job :: Jobpq.elements (helper.checkPQ curTime st).queue)) ∧
    ((DMLApplicationHelper.drained curTime st.queue).found = none →
      (∀ job ∈ Jobpq.elements st.queue, curTime < job.eTime) ∧
      (Jobpq.elements (helper.checkPQ curTime st).queue).Perm (Jobpq.elements st.queue)) := by
  obtain ⟨hsome, hnone⟩ := Jobpq.drain_spec (fun topJob => curTime ≥ topJob.eTime) []
    (le_refl (Jobpq.elements st.queue).length)
  have hpush := Jobpq.elements_pushAll (DMLApplicationHelper.drained curTime st.queue).queue
    (DMLApplicationHelper.drained curTime st.queue).aside
  unfold DMLApplicationHelper.checkPQ
  rw [append_nil] at hsome hnone
  constructor
  · intro job hfound
    obtain ⟨hstart, hfirst, hperm⟩ := hsome job hfound
    refine ⟨⟨hperm.mem_iff.mpr mem_cons_self, of_decide_eq_true hstart,
      fun other hother hstart' => ?_⟩, hperm.trans (hpush.symm.cons job)⟩
    exact not_compareByComSize.mp (hfirst other hother (decide_eq_true hstart'))
  · intro hfound
    obtain ⟨hall, hperm⟩ := hnone hfound
    refine ⟨fun job hjob => ?_, hpush.trans hperm.symm⟩
    exact Nat.not_le.mp (of_decide_eq_false (hall job hjob))

/-- For any queue and time: if some job may start, one that is least among those is taken from the
queue, and started; otherwise the queue and the functions stay. -/
theorem checkPQ_selects (helper : DMLApplicationHelper) (curTime : Nat) (st : State Jobpq) :
    ((∃ job ∈ Jobpq.elements st.queue, job.eTime ≤ curTime) →
      ∃ job, Selected curTime (Jobpq.elements st.queue) job ∧
        (Jobpq.elements st.queue).Perm (job :: Jobpq.elements (helper.checkPQ curTime st).queue) ∧
        Started helper job st.functions (helper.checkPQ curTime st).functions) ∧
    ((∀ job ∈ Jobpq.elements st.queue, curTime < job.eTime) →
      (Jobpq.elements (helper.checkPQ curTime st).queue).Perm (Jobpq.elements st.queue) ∧
        (helper.checkPQ curTime st).functions = st.functions) := by
  obtain ⟨hsome, hnone⟩ := checkPQ_spec helper curTime st
  have hfunctions : (helper.checkPQ curTime st).functions =
      match (DMLApplicationHelper.drained curTime st.queue).found with
      | some job => helper.addCommunicateFunctions job.batchId job.appId (1 / 10000) st.functions
      | none => st.functions := rfl
  rw [hfunctions]
  cases hfound : (DMLApplicationHelper.drained curTime st.queue).found with
  | some job =>
    obtain ⟨hselected, hperm⟩ := hsome job hfound
    refine ⟨fun _ => ⟨job, hselected, hperm,
      started_addCommunicateFunctions helper job st.functions⟩, fun hall => ?_⟩
    exact absurd hselected.2.1 (Nat.not_le.mpr (hall job hselected.1))
  | none =>
    obtain ⟨hall, hperm⟩ := hnone hfound
    refine ⟨?_, fun _ => ⟨hperm, rfl⟩⟩
    rintro ⟨job, hmem, hstart⟩
    exact absurd hstart (Nat.not_le.mpr (hall job hmem))

/-- The jobs that a step announces. -/
def Act.announced : Act → List CoInfo
  | .push job => [job]
  | .checkPQ _ => []

theorem step_accounts (helper : DMLApplicationHelper) (act : Act) (st : State Jobpq) :
    (act.announced ++ Jobpq.elements st.queue).Perm
      ((act.step helper st).1.toList ++ Jobpq.elements (act.step helper st).2.queue) := by
  cases act with
  | push job => exact (Jobpq.elements_push st.queue job).symm
  | checkPQ curTime =>
    obtain ⟨hsome, hnone⟩ := checkPQ_spec helper curTime st
    show (Jobpq.elements st.queue).Perm
      ((DMLApplicationHelper.drained curTime st.queue).found.toList ++
        Jobpq.elements (helper.checkPQ curTime st).queue)
    cases hfound : (DMLApplicationHelper.drained curTime st.queue).found with
    | some job => exact (hsome job hfound).2
    | none => exact (hnone hfound).2.symm

/-- In every run each job that was announced has been started or is in the queue, once. -/
theorem run_accounts (helper : DMLApplicationHelper) (acts : List Act) (st : State Jobpq) :
    (acts.flatMap Act.announced ++ Jobpq.elements st.queue).Perm
      ((run helper acts st).1 ++ Jobpq.elements (run helper acts st).2.queue) := by
  induction acts generalizing st with
  | nil => exact .refl _
  | cons act acts ih =>
    have hstep := step_accounts helper act st
    have hrest := ih (act.step helper st).2
    rw [flatMap_cons, append_assoc]
    refine (perm_append_comm_assoc _ _ _).trans ((hstep.append_left _).trans ?_)
    refine (perm_append_comm_assoc _ _ _).trans ?_
    exact (hrest.append_left _).trans (.of_eq (append_assoc _ _ _).symm)

/-- The jobs in order. -/
def sortedQueue : PriorityQueue CoInfo CompareByComSize where
  Queue := { jobs : List CoInfo // jobs.Pairwise fun a b => a.key ≤ b.key }
  elements queue := queue.1
  push queue job := ⟨queue.1.orderedInsert (fun a b => CompareByComSize b a) job,
    pairwise_orderedInsert (r := fun a b => CompareByComSize b a) (s := fun a b => a.key ≤ b.key)
      (fun _ _ => iff_not_comm.mp not_compareByComSize.symm) (fun a b => le_total a.key b.key)
      (fun _ _ _ => le_trans) job queue.2⟩
  top queue := queue.1.head?
  pop queue := ⟨queue.1.tail, queue.2.tail⟩
  elements_push queue job := List.perm_orderedInsert _ _ _
  top_eq_none queue htop := List.head?_eq_none_iff.mp htop
  elements_pop queue job htop := .of_eq (List.eq_cons_of_mem_head? htop)
  top_first queue job htop other hother := by
    have heq : queue.1 = job :: queue.1.tail := List.eq_cons_of_mem_head? htop
    have hle := queue.2
    rw [heq] at hother hle
    rw [not_compareByComSize]
    rcases List.mem_cons.mp hother with rfl | hother
    · exact le_refl _
    · exact (List.pairwise_cons.mp hle).1 other hother

/-- A smaller job that may not start yet is put back. -/
example : sortedQueue.elements ((⟨[0, 1], by decide, fun _ => 4⟩ : DMLApplicationHelper).checkPQ 3
    ⟨sortedQueue.pushAll ⟨[], .nil⟩ [⟨1, 0, 5, 10⟩, ⟨3, 0, 7, 0⟩], fun _ _ => []⟩).queue =
    [⟨1, 0, 5, 10⟩] := by
  decide

end MoeJit.JobQueue
