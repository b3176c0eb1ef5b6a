import MoeJit.Lib.FifoNet
import MoeJit.Mpi.Communicator

/-!
# ReduceScatter

`MPICommunicator::ReduceScatter`: every member runs one `Reduce` for each member
of the group, all at once, and takes the value out of the `std::optional` that
each of them returns. It then awaits them one after the other, and returns what
the `Reduce` to itself gave.

A `Reduce` returns a value at its root only, so a member takes part in all but
one of them with an empty optional:

* `returnsReduction_of_size_eq_one`: a group of one member gets its reduction;
* `threw_of_completed`: in a larger group `ReduceScatter` ends with the exception
  of an empty optional at every member, whatever the order of the steps.
-/

namespace MoeJit.Mpi

open Bytes StdMaxElement FifoNet

/-! ## 1. Model -/

/-- `data` of a member, and the value of the `Reduce` it is the root of. -/
structure Scattered (G : Group) (T : IntType) where
  data : G.Member → T.Val
  reduced : Option T.Val := none

variable {G : Group} {T : IntType}

/-- The traffic of the `Gather`s to all members at once. `iter` is the order in
which a member takes the values it gathered. -/
def gatherAll (G : Group) (T : IntType) (op : MPIOperator) (iter : G.Member → G.Order) :
    Algo G.Member Byte (Scattered G T) Unit where
  out _ st _ q := toBytes (st.data q)
  need _ _ _ _ := some T.size
  next r st _ got := { st with
    reduced := implementation T op ((iter r).val.map fun q => ofBytes T.size (got q)) }

/-- The exception of `std::optional::value`. -/
inductive Exception
  | badOptionalAccess
  deriving DecidableEq

/-- `o.value()`. -/
def optionalValue {V : Type} : Option V → Except Exception V
  | some v => .ok v
  | none => .error .badOptionalAccess

/-- What `Reduce(root, data[root])` has returned at a member, if it has returned:
the operator on the gathered values at the root, and `std::nullopt` elsewhere,
where it only waits for its own data to be sent. -/
def reduceResult (op : MPIOperator) (iter : G.Member → G.Order)
    (net : Net G.Member Byte (Scattered G T) Unit) (r root : G.Member) :
    Option (Option T.Val) :=
  match (net.node r).todo with
  | [] => some (if root = r then (net.node r).st.reduced else none)
  | _ :: _ =>
    if (net.node r).sent root = T.size then
      if root = r then
        if ∀ q ∈ G.members, ((net.node r).got q).length = T.size then
          some (implementation T op ((iter r).val.map fun q => ofBytes T.size ((net.node r).got q)))
        else none
      else some none
    else none

/-- The operation that `ReduceScatter` keeps for `root`, `Reduce` with `o.value()`
after it: what it has ended with, if it is done. -/
def operation (op : MPIOperator) (iter : G.Member → G.Order)
    (net : Net G.Member Byte (Scattered G T) Unit) (r root : G.Member) :
    Option (Except Exception T.Val) :=
  (reduceResult op iter net r root).map optionalValue

/-- `ReduceScatter` of a member: the operations it still has to await before it
takes its own, and how it ended. -/
inductive Caller (G : Group) (T : IntType)
  | awaiting (rest : List G.Member)
  | returned (v : T.Val)
  | threw (e : Exception)

/-- The operation that a member awaits. -/
def Caller.awaited (r : G.Member) : Caller G T → Option G.Member
  | .awaiting (q :: _) => some q
  | .awaiting [] => some r
  | _ => none

/-- A member goes on with what the operation it awaits has ended with. -/
def Caller.resume : Caller G T → Except Exception T.Val → Caller G T
  | .awaiting (_ :: rest), .ok _ => .awaiting rest
  | .awaiting [], .ok v => .returned v
  | .awaiting _, .error e => .threw e
  | c, _ => c

def Caller.Completed : Caller G T → Prop
  | .awaiting _ => False
  | _ => True

/-- A call of `ReduceScatter` by all members of a group. -/
structure Scatter (G : Group) (T : IntType) where
  net : Net G.Member Byte (Scattered G T) Unit
  caller : G.Member → Caller G T

def Scatter.setCaller (w : Scatter G T) (r : G.Member) (c : Caller G T) : Scatter G T :=
  { w with caller := Function.update w.caller r c }

@[simp] theorem Scatter.caller_setCaller (w : Scatter G T) (r : G.Member) (c : Caller G T) :
    (w.setCaller r c).caller r = c := by
  simp [Scatter.setCaller]

theorem Scatter.caller_setCaller_of_ne {p r : G.Member} (h : p ≠ r) (w : Scatter G T)
    (c : Caller G T) : (w.setCaller r c).caller p = w.caller p := by
  simp [Scatter.setCaller, h]

/-- Bytes move, or a member goes on after an operation that is done. -/
inductive Scatter.Step (op : MPIOperator) (iter : G.Member → G.Order)
    (cap : G.Member → G.Member → ℕ∞) : Scatter G T → Scatter G T → Prop
  | transfer {w : Scatter G T} {net : Net G.Member Byte (Scattered G T) Unit} :
      FifoNet.Step (gatherAll G T op iter) cap w.net net → Step op iter cap w { w with net := net }
  | resume {w : Scatter G T} {r q : G.Member} {res : Except Exception T.Val} :
      (w.caller r).awaited r = some q → operation op iter w.net r q = some res →
      Step op iter cap w (w.setCaller r ((w.caller r).resume res))

abbrev Scatter.Run (op : MPIOperator) (iter : G.Member → G.Order)
    (cap : G.Member → G.Member → ℕ∞) : Scatter G T → Scatter G T → Prop :=
  Relation.ReflTransGen (Scatter.Step op iter cap)

/-- The members at the call. `data q` is the map that `q` passes, and `order r`
the order in which `r` awaits its operations. -/
def Scatter.call (order : G.Member → G.Order) (data : G.Member → G.Member → T.Val) :
    Scatter G T :=
  { net := Net.init (fun _ => [()]) fun q => { data := data q }
    caller := fun r => .awaiting (order r).val }

/-- `ReduceScatter` returns the reduction: a member that has completed has
returned the operator on the values that all members have for it, in whatever
order they are taken; as long as a member has not completed there is a step; and
no run goes on for ever. -/
structure ReturnsReduction (op : MPIOperator) (iter order : G.Member → G.Order)
    (data : G.Member → G.Member → T.Val) (cap : G.Member → G.Member → ℕ∞) : Prop where
  returned : ∀ w, Scatter.Run op iter cap (Scatter.call order data) w →
    ∀ r, (w.caller r).Completed → ∃ v, w.caller r = .returned v ∧
      ∀ o : G.Order, implementation T op (o.val.map fun q => data q r) = some v
  progress : ∀ w, Scatter.Run op iter cap (Scatter.call order data) w →
    (∃ r, ¬ (w.caller r).Completed) → ∃ w', Scatter.Step op iter cap w w'
  finite : ∀ run : Nat → Scatter G T, run 0 = Scatter.call order data →
    ¬ ∀ n, Scatter.Step op iter cap (run n) (run (n + 1))

/-! ## 2. The gathers -/

/-- The traffic of a call, all of it in one round. -/
def gathers (G : Group) (T : IntType) (op : MPIOperator) (iter : G.Member → G.Order)
    (data : G.Member → G.Member → T.Val) : System G.Member Byte (Scattered G T) Unit where
  algo := gatherAll G T op iter
  prog _ := [()]
  start q := { data := data q }
  lab _ := 0
  bound := 1
  sorted _ := by simp
  lab_lt _ _ _ := Nat.zero_lt_one

section

variable {op : MPIOperator} {iter order : G.Member → G.Order}
  {data : G.Member → G.Member → T.Val} {cap : G.Member → G.Member → ℕ∞}

theorem roundAt_gathers (r : G.Member) : (gathers G T op iter data).roundAt r 0 = some () :=
  System.roundAt_eq_some.mpr ⟨by simp [gathers], rfl⟩

theorem outAt_gathers (q r : G.Member) :
    (gathers G T op iter data).outAt 0 q r = toBytes (data q r) :=
  System.outAt_of_some (roundAt_gathers q) r

theorem roundAt_gathers_succ (t : Nat) (r : G.Member) :
    (gathers G T op iter data).roundAt r (t + 1) = none := by
  cases hround : (gathers G T op iter data).roundAt r (t + 1) with
  | none => rfl
  | some u =>
    obtain ⟨-, hlab⟩ := System.roundAt_eq_some.mp hround
    exact absurd hlab (Nat.succ_ne_zero t).symm

theorem aligned_gathers : (gathers G T op iter data).Aligned where
  answers t r q := by
    cases t with
    | zero =>
      rw [System.needAt_of_some (roundAt_gathers r), outAt_gathers]
      exact ⟨T.size_pos, length_toBytes _⟩
    | succ t =>
      rw [System.outAt_of_none (roundAt_gathers_succ t q), System.needAt, roundAt_gathers_succ t r]
      exact rfl

/-- What the values that all members have for `r` reduce to. -/
def reductionAt (op : MPIOperator) (data : G.Member → G.Member → T.Val) (r : G.Member) :
    Option T.Val :=
  implementation T op (G.members.map fun q => data q r)

theorem implementation_order (o : G.Order) (r : G.Member) :
    implementation T op (o.val.map fun q => data q r) = reductionAt op data r :=
  implementation_perm T op (o.2.map fun q => data q r)

variable (op data) in
theorem exists_reductionAt (r : G.Member) : ∃ v, reductionAt op data r = some v :=
  Option.isSome_iff_exists.mp
    (implementation_isSome T op (by simpa [Group.members] using G.nonempty))

/-- The root of a `Reduce` has the reduction when its `Gather` is done. -/
theorem sync_gathers (r : G.Member) :
    ((gathers G T op iter data).sync 1 r).reduced = reductionAt op data r := by
  have hgot : (fun q => (gathers G T op iter data).outAt 0 q r) = fun q => toBytes (data q r) :=
    funext fun q => outAt_gathers q r
  rw [System.sync_succ (roundAt_gathers r), hgot]
  change implementation T op ((iter r).val.map fun q => ofBytes T.size (toBytes (data q r))) = _
  simp only [ofBytes_toBytes]
  exact implementation_order (iter r) r

variable {net : Net G.Member Byte (Scattered G T) Unit} {r : G.Member}
  {res : Except Exception T.Val} {w : Scatter G T}

section

variable (h : Inv (gathers G T op iter data) net)
include h

/-- What a `Reduce` returns: the reduction at its root, nothing elsewhere. -/
theorem reduceResult_eq {root : G.Member} {res : Option T.Val}
    (hres : reduceResult op iter net r root = some res) :
    res = if root = r then reductionAt op data r else none := by
  unfold reduceResult at hres
  cases htodo : (net.node r).todo with
  | nil =>
    have hst := h.st r
    rw [htodo] at hst hres
    have hreduced := congrArg Scattered.reduced hst
    rw [show (gathers G T op iter data).stage [] = 1 from rfl, sync_gathers] at hreduced
    rw [← Option.some.inj hres, hreduced]
  | cons u rest =>
    rw [htodo] at hres
    simp only at hres
    split at hres
    · split at hres
      · next hroot =>
        rw [if_pos hroot]
        split at hres
        · next hfull =>
          have hgot : ∀ q, (net.node r).got q = toBytes (data q r) := by
            intro q
            have hprefix := h.got_prefix r q
            rw [htodo] at hprefix
            change _ <+: (gathers G T op iter data).outAt 0 q r at hprefix
            rw [outAt_gathers] at hprefix
            refine hprefix.eq_of_length ?_
            rw [hfull q (Group.mem_members q), length_toBytes]
          rw [← Option.some.inj hres, ← implementation_order (iter r) r]
          simp only [hgot, ofBytes_toBytes]
        · exact absurd hres (by simp)
      · next hroot =>
        rw [if_neg hroot]
        exact (Option.some.inj hres).symm
    · exact absurd hres (by simp)

theorem operation_self (hres : operation op iter net r r = some res) :
    ∃ v, res = .ok v ∧ reductionAt op data r = some v := by
  obtain ⟨o, ho, rfl⟩ := Option.map_eq_some_iff.mp hres
  obtain ⟨v, hv⟩ := exists_reductionAt op data r
  rw [reduceResult_eq h ho, if_pos rfl, hv]
  exact ⟨v, rfl, rfl⟩

theorem operation_other {q : G.Member} (hne : q ≠ r) (hres : operation op iter net r q = some res) :
    res = .error .badOptionalAccess := by
  obtain ⟨o, ho, rfl⟩ := Option.map_eq_some_iff.mp hres
  rw [reduceResult_eq h ho, if_neg hne]
  rfl

end

variable (op iter) in
theorem operation_of_finished (hdone : (net.node r).todo = []) (q : G.Member) :
    ∃ res, operation op iter net r q = some res := by
  refine ⟨optionalValue (if q = r then (net.node r).st.reduced else none), ?_⟩
  rw [operation, reduceResult, hdone]
  rfl

/-! ## 3. Runs -/

theorem inv_net (h : Scatter.Run op iter cap (Scatter.call order data) w) :
    Inv (gathers G T op iter data) w.net := by
  induction h with
  | refl => exact inv_init aligned_gathers
  | tail _ hstep ih =>
    cases hstep with
    | transfer hnet => exact inv_step aligned_gathers ih hnet
    | resume _ _ => exact ih

/-- What a caller of `ReduceScatter` may have reached: it has not passed the
operation of another member, and has an outcome only if it threw or there is no
other member. -/
def CallerOk (op : MPIOperator) (data : G.Member → G.Member → T.Val) (r : G.Member) :
    Caller G T → Prop
  | .awaiting rest => ∀ q, q ≠ r → q ∈ rest
  | .returned v => (∀ q, q = r) ∧ reductionAt op data r = some v
  | .threw _ => ∃ q, q ≠ r

theorem callerOk_resume (h : Inv (gathers G T op iter data) net) {q : G.Member} {c : Caller G T}
    (hc : CallerOk op data r c) (hq : c.awaited r = some q)
    (hres : operation op iter net r q = some res) : CallerOk op data r (c.resume res) := by
  cases c with
  | returned v => exact hc
  | threw e => exact hc
  | awaiting rest =>
    cases rest with
    | nil =>
      obtain rfl : r = q := Option.some.inj hq
      obtain ⟨v, rfl, hv⟩ := operation_self h hres
      exact ⟨fun q => by_contra fun hne => absurd (hc q hne) List.not_mem_nil, hv⟩
    | cons p rest =>
      obtain rfl : p = q := Option.some.inj hq
      rcases eq_or_ne p r with rfl | hne
      · obtain ⟨v, rfl, -⟩ := operation_self h hres
        intro q hne
        exact (List.mem_cons.mp (hc q hne)).resolve_left hne
      · rw [operation_other h hne hres]
        exact ⟨p, hne⟩

theorem callerOk (h : Scatter.Run op iter cap (Scatter.call order data) w) (r : G.Member) :
    CallerOk op data r (w.caller r) := by
  induction h with
  | refl =>
    intro q _
    exact ((order r).2.mem_iff).mpr (Group.mem_members q)
  | tail hrun hstep ih =>
    cases hstep with
    | transfer _ => exact ih
    | @resume p q res hq hres =>
      rcases eq_or_ne r p with rfl | hne
      · rw [Scatter.caller_setCaller]
        exact callerOk_resume (inv_net hrun) ih hq hres
      · rw [Scatter.caller_setCaller_of_ne hne]
        exact ih

/-- In a group of two or more members every member that completes has thrown. -/
theorem threw_of_completed (h : Scatter.Run op iter cap (Scatter.call order data) w) {q : G.Member}
    (hne : q ≠ r) (hdone : (w.caller r).Completed) : ∃ e, w.caller r = .threw e := by
  have hok := callerOk h r
  cases hc : w.caller r with
  | awaiting rest =>
    rw [hc] at hdone
    exact absurd hdone id
  | threw e => exact ⟨e, rfl⟩
  | returned v =>
    rw [hc] at hok
    exact absurd (hok.1 q) hne

/-- The steps of the network are steps of the call. -/
theorem run_of_net (h : FifoNet.Run (gatherAll G T op iter) cap w.net net) :
    Scatter.Run op iter cap w { w with net := net } := by
  induction h with
  | refl => exact .refl
  | tail _ hstep ih => exact .tail ih (.transfer hstep)

/-- A member whose traffic is done goes on until it has completed. -/
theorem exists_completed (hdone : (w.net.node r).todo = []) :
    ∃ w', Scatter.Run op iter cap w w' ∧ (w'.caller r).Completed := by
  cases hc : w.caller r with
  | returned v | threw e => exact ⟨w, .refl, by rw [hc]; trivial⟩
  | awaiting rest =>
    induction rest generalizing w with
    | nil =>
      obtain ⟨res, hres⟩ := operation_of_finished op iter hdone r
      refine ⟨_, .single (.resume (q := r) (by rw [hc]; rfl) hres), ?_⟩
      rw [Scatter.caller_setCaller, hc]
      cases res <;> exact trivial
    | cons q rest ih =>
      obtain ⟨res, hres⟩ := operation_of_finished op iter hdone q
      have hstep : Scatter.Step op iter cap w _ :=
        .resume (by rw [hc]; rfl : (w.caller r).awaited r = some q) hres
      cases res with
      | ok v =>
        obtain ⟨w', hrun, hcompleted⟩ := ih (w := w.setCaller r ((w.caller r).resume (.ok v)))
          hdone (by rw [Scatter.caller_setCaller, hc]; rfl)
        exact ⟨w', .head hstep hrun, hcompleted⟩
      | error e =>
        refine ⟨_, .single hstep, ?_⟩
        rw [Scatter.caller_setCaller, hc]
        exact trivial

theorem not_returnsReduction (hcap : ∀ r q, 0 < cap r q) {q : G.Member} (hne : q ≠ r) :
    ¬ ReturnsReduction op iter order data cap := by
  intro h
  obtain ⟨net, hnet, hfin⟩ := exists_finished aligned_gathers hcap
    (inv_init aligned_gathers : Inv (gathers G T op iter data) _)
  have hrun : Scatter.Run op iter cap (Scatter.call order data) _ := run_of_net hnet
  obtain ⟨w, hrun', hdone⟩ : ∃ w, Scatter.Run op iter cap
      { Scatter.call order data with net := net } w ∧ (w.caller r).Completed :=
    exists_completed (hfin r)
  obtain ⟨v, hv, -⟩ := h.returned w (hrun.trans hrun') r hdone
  obtain ⟨e, he⟩ := threw_of_completed (hrun.trans hrun') hne hdone
  rw [hv] at he
  cases he

end

/-! ## 4. A group of one -/

section

variable {op : MPIOperator} {iter order : G.Member → G.Order}
  {data : G.Member → G.Member → T.Val} {cap : G.Member → G.Member → ℕ∞}

/-- The steps that a caller has to take. -/
def Caller.work : Caller G T → Nat
  | .awaiting rest => rest.length + 1
  | _ => 0

theorem Caller.work_resume {c : Caller G T} {r q : G.Member} (h : c.awaited r = some q)
    (res : Except Exception T.Val) : (c.resume res).work < c.work := by
  cases c with
  | returned v => cases h
  | threw e => cases h
  | awaiting rest =>
    cases rest with
    | nil => cases res <;> exact Nat.zero_lt_one
    | cons p rest =>
      cases res with
      | ok v => exact Nat.lt_succ_self _
      | error e => exact Nat.succ_pos _

/-- The steps that a call has to take. -/
def Scatter.work (op : MPIOperator) (iter : G.Member → G.Order)
    (data : G.Member → G.Member → T.Val) (w : Scatter G T) : Nat :=
  FifoNet.work (gathers G T op iter data) w.net + ∑ r, (w.caller r).work

theorem Scatter.work_step {w w' : Scatter G T} (h : Inv (gathers G T op iter data) w.net)
    (hstep : Scatter.Step op iter cap w w') :
    w'.work op iter data < w.work op iter data := by
  cases hstep with
  | transfer hnet =>
    have hwork := FifoNet.work_step aligned_gathers h hnet
    exact Nat.add_lt_add_right (hwork ▸ Nat.lt_succ_self _) _
  | @resume r q res hq hres =>
    refine Nat.add_lt_add_left (Finset.sum_lt_sum (fun p _ => ?_) ⟨r, Finset.mem_univ r, ?_⟩) _
    · rcases eq_or_ne p r with rfl | hne
      · rw [Scatter.caller_setCaller]
        exact (Caller.work_resume hq res).le
      · rw [Scatter.caller_setCaller_of_ne hne]
    · rw [Scatter.caller_setCaller]
      exact Caller.work_resume hq res

/-- No call goes on for ever, in a group of any size. -/
theorem no_infinite_run (run : Nat → Scatter G T) (h0 : run 0 = Scatter.call order data) :
    ¬ ∀ n, Scatter.Step op iter cap (run n) (run (n + 1)) := by
  intro hsteps
  have hrun : ∀ n, Scatter.Run op iter cap (Scatter.call order data) (run n) := by
    intro n
    induction n with
    | zero => rw [h0]
    | succ n ih => exact .tail ih (hsteps n)
  have hlt : ∀ n, (run (n + 1)).work op iter data < (run n).work op iter data :=
    fun n => Scatter.work_step (inv_net (hrun n)) (hsteps n)
  obtain ⟨n, hn⟩ := WellFounded.not_rel_apply_succ (r := (· < ·)) fun n => (run n).work op iter data
  exact hn (hlt n)

/-- In a group of any size, a call in which some member has not completed has a
step left. -/
theorem exists_step (hcap : ∀ r q, 0 < cap r q) {w : Scatter G T}
    (h : Scatter.Run op iter cap (Scatter.call order data) w) {r : G.Member}
    (hnot : ¬ (w.caller r).Completed) : ∃ w', Scatter.Step op iter cap w w' := by
  rcases em (Finished w.net) with hfin | hfin
  · obtain ⟨q, hq⟩ : ∃ q, (w.caller r).awaited r = some q := by
      cases hc : w.caller r with
      | returned v | threw e => exact absurd (by rw [hc]; trivial) hnot
      | awaiting rest => cases rest <;> exact ⟨_, rfl⟩
    obtain ⟨res, hres⟩ := operation_of_finished op iter (hfin r) q
    exact ⟨_, .resume hq hres⟩
  · obtain ⟨net, hnet⟩ := progress aligned_gathers hcap (inv_net h) hfin
    exact ⟨_, .transfer hnet⟩

theorem returnsReduction_of_size_eq_one (hcap : ∀ r q, 0 < cap r q) (hsize : G.size = 1) :
    ReturnsReduction op iter order data cap where
  returned w h r hdone := by
    have hone : ∀ q : G.Member, q = r := by
      intro q
      obtain ⟨a, ha⟩ := List.length_eq_one_iff.mp hsize
      have hval : ∀ p : G.Member, p.val = a := fun p => List.mem_singleton.mp (ha ▸ p.2)
      exact Subtype.ext ((hval q).trans (hval r).symm)
    have hok := callerOk h r
    cases hc : w.caller r with
    | awaiting rest =>
      rw [hc] at hdone
      exact absurd hdone id
    | threw e =>
      rw [hc] at hok
      obtain ⟨q, hne⟩ := hok
      exact absurd (hone q) hne
    | returned v =>
      rw [hc] at hok
      exact ⟨v, rfl, fun o => (implementation_order o r).trans hok.2⟩
  progress w h hnot := by
    obtain ⟨r, hr⟩ := hnot
    exact exists_step hcap h hr
  finite run h0 := no_infinite_run run h0

end

/-- `ReduceScatter` returns the reduction exactly in the groups of one member. -/
theorem reduce_scatter_iff (G : Group) (T : IntType) (op : MPIOperator)
    (iter order : G.Member → G.Order) (data : G.Member → G.Member → T.Val)
    (cap : G.Member → G.Member → ℕ∞) (hcap : ∀ r q, 0 < cap r q) :
    ReturnsReduction op iter order data cap ↔ G.size = 1 := by
  constructor
  · intro h
    by_contra hsize
    have hlen : 1 < G.ranks.length :=
      Nat.lt_of_le_of_ne G.size_pos (Ne.symm hsize)
    -- the two smallest ranks of the group
    have hne : G.ranks[1] ≠ G.ranks[0] :=
      (Nat.ne_of_lt (List.pairwise_iff_getElem.mp G.sorted 0 1 (by omega) hlen (by omega))).symm
    refine not_returnsReduction hcap (r := ⟨G.ranks[0], List.getElem_mem _⟩)
      (q := ⟨G.ranks[1], List.getElem_mem _⟩) (fun heq => hne ?_) h
    exact congrArg Subtype.val heq
  · exact returnsReduction_of_size_eq_one hcap

/-- Rank 3 alone. -/
theorem reduce_scatter_iff_single : ReturnsReduction (G := ⟨[3], by decide, by decide⟩)
    (T := ⟨4, true, by decide⟩) .sum (fun _ => ⟨_, .refl _⟩) (fun _ => ⟨_, .refl _⟩)
    (fun _ _ => 5) (fun _ _ => 1) :=
  (reduce_scatter_iff _ _ .sum (fun _ => ⟨_, .refl _⟩) (fun _ => ⟨_, .refl _⟩) (fun _ _ => 5)
    (fun _ _ => 1) fun _ _ => by simp).mpr rfl

/-- Ranks 3 and 5: both end with the exception of an empty optional. -/
theorem not_returnsReduction_pair : ¬ ReturnsReduction (G := ⟨[3, 5], by decide, by decide⟩)
    (T := ⟨4, true, by decide⟩) .sum (fun _ => ⟨_, .refl _⟩) (fun _ => ⟨_, .refl _⟩)
    (fun _ _ => 5) (fun _ _ => 1) :=
  not_returnsReduction (fun _ _ => by simp) (r := ⟨3, by decide⟩) (q := ⟨5, by decide⟩)
    (by decide)

end MoeJit.Mpi
