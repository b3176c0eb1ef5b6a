import MoeJit.Lib.FifoNet
import MoeJit.Mpi.AllReduce

/-!
# Collective operations

`Gather`, `AllGather`, `Scatter`, `Broadcast`, `Reduce`, `AllToAll` and `Barrier` of
`MPICommunicator`, for values of integral types. A member starts all sends and receives of an
operation at once and goes on when all are done, so that two members may be several operations
apart, with the bytes of all of them in one stream.

`collectives_atomic`: a program of any such operations, run by all members of a group, does at each
member what it does when all members run each operation at once, and it ends. No member leaves an
operation before all that it receives from have come to it: after a barrier, all have.
-/

namespace MoeJit.Mpi

open Bytes FifoNet List

variable {G : Group} {σ : Type}

/-! ## 1. Model -/

/-- What a member sends to which others, and what it makes of the values it receives. `σ` is what a
member has in its variables. -/
structure Collective (G : Group) (σ : Type) where
  T : IntType
  sends : G.Member → G.Member → Bool
  receives : G.Member → G.Member → Bool
  value : G.Member → σ → G.Member → T.Val
  result : G.Member → σ → (G.Member → Option T.Val) → σ
  matched : ∀ r q, receives r q = sends q r

namespace Collective

/-- The map that `Gather` returns is empty but at the root. -/
def gather (T : IntType) (root : G.Member) (data : σ → T.Val)
    (result : σ → (G.Member → Option T.Val) → σ) : Collective G σ where
  T := T
  sends _ q := q = root
  receives r _ := r = root
  value _ st _ := data st
  result _ := result
  matched _ _ := rfl

/-- A `Gather` to each member. -/
def allGather (T : IntType) (data : G.Member → σ → T.Val)
    (result : σ → (G.Member → Option T.Val) → σ) : Collective G σ where
  T := T
  sends _ _ := true
  receives _ _ := true
  value r st _ := data r st
  result _ := result
  matched _ _ := rfl

def scatter (T : IntType) (root : G.Member) (data : σ → G.Member → T.Val)
    (result : σ → Option T.Val → σ) : Collective G σ where
  T := T
  sends r _ := r = root
  receives _ q := q = root
  value _ := data
  result _ st map := result st (map root)
  matched _ _ := rfl

/-- `data` is the content of the `std::optional`, which the root has. -/
def broadcast (T : IntType) (root : G.Member) (data : σ → T.Val) (result : σ → Option T.Val → σ) :
    Collective G σ :=
  scatter T root (fun st _ => data st) result

/-- `MPIOperatorImplementation` at the root, on the values in the order `iter` of its map. -/
def reduce (T : IntType) (op : MPIOperator) (iter : G.Order) (root : G.Member) (data : σ → T.Val)
    (result : G.Member → σ → Option T.Val → σ) : Collective G σ :=
  { gather T root data fun st _ => st with
    result := fun r st map => result r st
      (if r = root then implementation T op (iter.val.filterMap map) else none) }

/-- The values go to the members in `data`, each of which has an entry for the member too. -/
def allToAll (T : IntType) (peers : G.Member → G.Member → Bool)
    (hsymm : ∀ r q, peers r q = peers q r) (data : σ → G.Member → T.Val)
    (result : σ → (G.Member → Option T.Val) → σ) : Collective G σ where
  T := T
  sends := peers
  receives := peers
  value _ := data
  result _ := result
  matched := hsymm

/-- A `Gather` of the ranks to each member, whose maps are discarded. -/
def barrier : Collective G σ :=
  allGather ⟨8, false, by decide⟩ (fun r _ => BitVec.ofNat _ r.val) fun st _ => st

/-- All members run the operation at once. -/
def step (c : Collective G σ) (st : G.Member → σ) (r : G.Member) : σ :=
  c.result r (st r) fun q => if c.receives r q then some (c.value q (st q) r) else none

end Collective

/-- A program of operations, each run by all members at once. -/
def atomically (calls : List (Collective G σ)) (st : G.Member → σ) : G.Member → σ :=
  calls.foldl (fun st c => c.step st) st

/-- An operation at a member, with its number in the program. -/
def collectives : Algo G.Member Byte σ (Collective G σ × Nat) where
  out r st c q := if c.1.sends r q then toBytes (c.1.value r st q) else []
  need r _ c q := if c.1.receives r q then some c.1.T.size else none
  next r st c got := c.1.result r st fun q =>
    if c.1.receives r q then some (ofBytes c.1.T.size (got q)) else none

variable (calls : List (Collective G σ)) (start : G.Member → σ)

/-- A program of operations at the members, each at its own speed. -/
def program : System G.Member Byte σ (Collective G σ × Nat) where
  algo := collectives
  prog _ := calls.zipIdx
  start := start
  lab := Prod.snd
  bound := calls.length
  sorted _ := by
    rw [← pairwise_map, zipIdx_map_snd]
    exact pairwise_lt_range'
  lab_lt _ c hc := by
    exact (List.getElem?_eq_some_iff.mp (mem_zipIdx_iff_getElem?.mp hc)).1

/-! ## 2. The run in lock step -/

section

variable {calls start} {t : Nat} {c : Collective G σ}

theorem roundAt_program (r : G.Member) :
    (program calls start).roundAt r t = calls[t]?.map fun c => (c, t) := by
  refine Option.ext fun p => ?_
  rw [System.roundAt_eq_some, Option.map_eq_some_iff]
  constructor
  · rintro ⟨hp, rfl⟩
    exact ⟨p.1, mem_zipIdx_iff_getElem?.mp hp, rfl⟩
  · rintro ⟨c, hc, rfl⟩
    exact ⟨mem_zipIdx_iff_getElem?.mpr hc, rfl⟩

theorem roundAt_call (h : calls[t]? = some c) (r : G.Member) :
    (program calls start).roundAt r t = some (c, t) := by
  rw [roundAt_program, h, Option.map_some]

theorem outAt_call (h : calls[t]? = some c) (r q : G.Member) :
    (program calls start).outAt t q r = if c.receives r q then
      toBytes (c.value q ((program calls start).sync t q) r) else [] := by
  rw [System.outAt_of_some (roundAt_call h q), c.matched r q]
  rfl

theorem sync_program (r : G.Member) :
    (program calls start).sync t r = atomically (calls.take t) start r := by
  induction t generalizing r with
  | zero => rfl
  | succ t ih =>
    rw [take_add_one, atomically, foldl_append]
    cases hc : calls[t]? with
    | none =>
      rw [System.sync_succ_of_none (by rw [roundAt_program, hc]; rfl), ih]
      rfl
    | some c =>
      rw [System.sync_succ (roundAt_call hc r), ih]
      refine congrArg (c.result r _) (funext fun q => ?_)
      dsimp only
      rw [outAt_call hc, ih]
      cases c.receives r q with
      | false => rfl
      | true => exact congrArg some (ofBytes_toBytes _)

theorem aligned_program : (program calls start).Aligned where
  answers t r q := by
    cases hc : calls[t]? with
    | none =>
      have hround (r : G.Member) : (program calls start).roundAt r t = none := by
        rw [roundAt_program, hc]
        rfl
      rw [System.needAt, hround, System.outAt_of_none (hround q)]
      exact rfl
    | some c =>
      rw [System.needAt_of_some (roundAt_call hc r), outAt_call hc]
      change System.Answers (if c.receives r q then some c.T.size else none) _
      split
      · exact ⟨c.T.size_pos, length_toBytes _⟩
      · exact rfl

/-- The number of the operation that a member is in. -/
theorem stage_program {todo : List (Collective G σ × Nat)} (h : todo <:+ calls.zipIdx) :
    (program calls start).stage todo = calls.length - todo.length := by
  obtain ⟨before, hcalls⟩ := h
  have hlen := congrArg length hcalls
  rw [length_append, length_zipIdx] at hlen
  cases todo with
  | nil => rfl
  | cons p rest =>
    have hp : calls.zipIdx[before.length]? = some p := by
      rw [← hcalls, getElem?_append_right le_rfl, Nat.sub_self]
      rfl
    rw [getElem?_zipIdx] at hp
    obtain ⟨c, -, rfl⟩ := Option.map_eq_some_iff.mp hp
    show 0 + before.length = _
    omega

end

/-! ## 3. Runs -/

theorem collectives_atomic {calls : List (Collective G σ)} {start : G.Member → σ}
    {cap : G.Member → G.Member → ℕ∞} (hcap : ∀ r q, 0 < cap r q)
    {w : Net G.Member Byte σ (Collective G σ × Nat)}
    (h : Reachable (program calls start) cap w) :
    let done r := calls.length - (w.node r).todo.length
    (∀ r, (w.node r).st = atomically (calls.take (done r)) start r) ∧
    (∀ t c, calls[t]? = some c → ∀ r q, c.receives r q → t < done r → t ≤ done q) ∧
    (∃ w', Run collectives cap w w' ∧ Finished w') ∧
    ∃ bound, ∀ n w', RunN collectives cap n w w' → n ≤ bound := by
  intro done
  have hal : (program calls start).Aligned := aligned_program
  have hinv := h.inv hal
  have hstage (r : G.Member) : (program calls start).stage (w.node r).todo = done r :=
    stage_program (hinv.suffix r)
  refine ⟨fun r => ?_, fun t c hc r q hreceives hdone => ?_, exists_finished hal hcap hinv, _,
    fun n w' => length_le_work hal hinv⟩
  · rw [hinv.st r, hstage, sync_program]
  · rw [← hstage] at hdone ⊢
    refine hinv.entered ?_ hdone
    rw [outAt_call hc, if_pos hreceives, length_toBytes]
    exact c.T.size_pos

/-- Rank 3 has the value 5. -/
def announce : System pair.Member Byte (BitVec 32) (Collective pair (BitVec 32) × Nat) :=
  program [.broadcast int32 ⟨3, by decide⟩ id fun st v => v.getD st, .barrier]
    fun r => if r.val = 3 then 5 else 0

theorem collectives_atomic_announce : ∃ w, Reachable announce (fun _ _ => 1) w ∧ Finished w ∧
    ∀ r, (w.node r).st = (5 : BitVec 32) := by
  have hcap (_ _ : pair.Member) : (0 : ℕ∞) < 1 := by decide
  have hstart : Reachable announce (fun _ _ => 1) (Net.init announce.prog announce.start) := .refl
  obtain ⟨-, -, ⟨w, hrun, hfinished⟩, -⟩ := collectives_atomic hcap hstart
  refine ⟨w, hrun, hfinished, fun r => ?_⟩
  have hstate := (collectives_atomic hcap hrun).1 r
  dsimp only at hstate
  rw [hfinished r] at hstate
  have hall : ∀ r, atomically [.broadcast int32 ⟨3, by decide⟩ id fun st v => v.getD st, .barrier]
      (fun r : pair.Member => if r.val = 3 then (5 : BitVec 32) else 0) r = 5 := by decide
  exact hstate.trans (hall r)

end MoeJit.Mpi
