import MoeJit.Lib.FifoNet
import MoeJit.Mpi.Communicator

/-!
# AllReduce

`MPICommunicator::AllReduce`: the members elect a root (`Elect`, one `Gather` to
every member at once), reduce their values at the root (`Reduce`, a `Gather` to
the root) and receive the result from it (`Broadcast`). The votes, the values
and the result travel as bytes over the same untagged streams, and each member
goes on at its own speed.

`all_reduce_agreement`: in every run the members elect the same root, one of the
group, and every member that returns has the value of the operator on the
values of all members, each used once.
-/

namespace MoeJit.Mpi

open Bytes StdMaxElement FifoNet

/-! ## 1. Model -/

/-- The three collectives that a member runs one after the other. -/
inductive Phase
  | elect
  | reduce
  | broadcast

/-- What a member keeps between the phases. -/
structure Local (T : IntType) where
  vote : BitVec (8 * 8)
  data : T.Val
  root : Option MPIRankID := none
  reduced : Option T.Val := none
  result : Option T.Val := none

/-- The comparator of `Elect`: by vote, then by rank. -/
def VoteLess (p₁ p₂ : MPIRankID × BitVec (8 * 8)) : Prop :=
  if p₁.2 = p₂.2 then p₁.1 < p₂.1 else p₁.2.toNat < p₂.2.toNat

instance : DecidableRel VoteLess := fun p₁ p₂ =>
  inferInstanceAs (Decidable (if p₁.2 = p₂.2 then p₁.1 < p₂.1 else p₁.2.toNat < p₂.2.toNat))

/-- The rank of the largest vote. -/
def electedOf (votes : List (MPIRankID × BitVec (8 * 8))) : Option MPIRankID :=
  (maxElement VoteLess votes).map (·.1)

variable {G : Group} {T : IntType}

/-- `AllReduce` of one member. `iter` is the order in which the loops of a member
over its maps meet the members. -/
def allReduce (G : Group) (T : IntType) (op : MPIOperator) (iter : G.Member → Phase → G.Order) :
    Algo G.Member Byte (Local T) Phase where
  out r st phase q := match phase with
    | .elect => toBytes st.vote
    | .reduce => if st.root = some q.val then toBytes st.data else []
    | .broadcast => if st.root = some r.val then st.reduced.elim [] toBytes else []
  need r st phase q := match phase with
    | .elect => some 8
    | .reduce => if st.root = some r.val then some T.size else none
    | .broadcast => if st.root = some q.val then some T.size else none
  next r st phase got := match phase with
    | .elect => { st with
        root := electedOf ((iter r .elect).val.map fun q => (q.val, ofBytes 8 (got q))) }
    | .reduce => { st with
        reduced := if st.root = some r.val then
          implementation T op ((iter r .reduce).val.map fun q => ofBytes T.size (got q))
        else none }
    | .broadcast => { st with
        result := (G.members.find? fun q => st.root = some q.val).map fun q =>
          ofBytes T.size (got q) }

/-- The members at the call: each with a vote and a value. -/
def callState (vote : G.Member → BitVec (8 * 8)) (input : G.Member → T.Val) (r : G.Member) :
    Local T :=
  { vote := vote r, data := input r }

/-- A call of `AllReduce` by all members of a group. -/
def system (G : Group) (T : IntType) (op : MPIOperator) (iter : G.Member → Phase → G.Order)
    (vote : G.Member → BitVec (8 * 8)) (input : G.Member → T.Val) :
    System G.Member Byte (Local T) Phase where
  algo := allReduce G T op iter
  prog _ := [.elect, .reduce, .broadcast]
  start := callState vote input
  lab
    | .elect => 0
    | .reduce => 1
    | .broadcast => 2
  bound := 3
  sorted _ := by simp
  lab_lt _ r _ := by cases r <;> simp

/-! ## 2. The run in lock step -/

/-- The rank that the votes of all members elect. -/
def elected (vote : G.Member → BitVec (8 * 8)) : Option MPIRankID :=
  electedOf (G.members.map fun q => (q.val, vote q))

/-- The operator on the values of all members. -/
def reducedValue (op : MPIOperator) (input : G.Member → T.Val) : Option T.Val :=
  implementation T op (G.members.map input)

theorem isStrictTotal_voteLess : IsStrictTotal VoteLess where
  irrefl p := by simp [VoteLess]
  trans p₁ p₂ p₃ := by
    unfold VoteLess
    intro h₁₂ h₂₃
    split at h₁₂
    · next h =>
      rw [h]
      split at h₂₃
      · next h' =>
        rw [if_pos h']
        exact lt_trans h₁₂ h₂₃
      · next h' => rwa [if_neg h']
    · next h =>
      split at h₂₃
      · next h' => rwa [← h', if_neg h]
      · have hlt := lt_trans h₁₂ h₂₃
        rw [if_neg fun heq => by rw [heq] at hlt; exact lt_irrefl _ hlt]
        exact hlt
  total p₁ p₂ := by
    unfold VoteLess
    intro h₁₂ h₂₁
    by_cases h : p₁.2 = p₂.2
    · rw [if_pos h] at h₁₂
      rw [if_pos h.symm] at h₂₁
      exact Prod.ext (le_antisymm (not_lt.mp h₂₁) (not_lt.mp h₁₂)) h
    · rw [if_neg h] at h₁₂
      rw [if_neg (Ne.symm h)] at h₂₁
      exact absurd (BitVec.eq_of_toNat_eq (le_antisymm (not_lt.mp h₂₁) (not_lt.mp h₁₂))) h

theorem exists_elected (vote : G.Member → BitVec (8 * 8)) :
    ∃ e : G.Member, elected vote = some e.val := by
  have hne : (G.members.map fun q => (q.val, vote q)) ≠ [] := by
    have := G.nonempty
    simpa [Group.members] using this
  have hsome : (maxElement VoteLess (G.members.map fun q => (q.val, vote q))).isSome :=
    maxElement_isSome hne
  obtain ⟨p, hp⟩ := Option.isSome_iff_exists.mp hsome
  obtain ⟨q, -, hq⟩ := List.mem_map.mp ((maxElement_eq_some isStrictTotal_voteLess).mp hp).1
  exact ⟨q, by rw [elected, electedOf, hp, ← hq]; rfl⟩

section

variable {op : MPIOperator} {iter : G.Member → Phase → G.Order}
  {vote : G.Member → BitVec (8 * 8)} {input : G.Member → T.Val}

section

variable (r : G.Member)

theorem roundAt_elect : (system G T op iter vote input).roundAt r 0 = some .elect :=
  System.roundAt_eq_some.mpr ⟨by simp [system], rfl⟩

theorem roundAt_reduce :
    (system G T op iter vote input).roundAt r 1 = some .reduce :=
  System.roundAt_eq_some.mpr ⟨by simp [system], rfl⟩

theorem roundAt_broadcast :
    (system G T op iter vote input).roundAt r 2 = some .broadcast :=
  System.roundAt_eq_some.mpr ⟨by simp [system], rfl⟩

/-- Every member sends its vote to every member, and elects the same root. -/
theorem sync_elect : (system G T op iter vote input).sync 1 r =
    { callState vote input r with root := elected vote } := by
  have hgot : (fun q => (system G T op iter vote input).outAt 0 q r) =
      fun q => toBytes (vote q) := funext fun q => System.outAt_of_some (roundAt_elect q) r
  rw [System.sync_succ (roundAt_elect r), hgot]
  change { callState vote input r with root := electedOf ((iter r .elect).val.map
    fun q : G.Member => (q.val, ofBytes 8 (toBytes (vote q)))) } = _
  have hperm := (iter r .elect).2.map fun q => (q.val, vote q)
  simp only [ofBytes_toBytes]
  rw [electedOf, maxElement_perm isStrictTotal_voteLess hperm]
  rfl

/-- Every member sends its value to the root, and the root reduces them. -/
theorem sync_reduce : (system G T op iter vote input).sync 2 r =
    { callState vote input r with
      root := elected vote
      reduced := if elected vote = some r.val then reducedValue op input else none } := by
  have hgot : (fun q => (system G T op iter vote input).outAt 1 q r) =
      fun q => if elected vote = some r.val then toBytes (input q) else [] := by
    funext q
    rw [System.outAt_of_some (roundAt_reduce q), sync_elect]
    rfl
  rw [System.sync_succ (roundAt_reduce r), hgot, sync_elect]
  change { callState vote input r with
    root := elected vote
    reduced := if elected vote = some r.val then implementation T op ((iter r .reduce).val.map
      fun q : G.Member => ofBytes T.size (if elected vote = some r.val then toBytes (input q) else []))
      else none } = _
  split
  · next hroot =>
    have hperm := (iter r .reduce).2.map input
    simp only [ofBytes_toBytes]
    rw [implementation_perm T op hperm]
    rfl
  · rfl

theorem sync_broadcast :
    ((system G T op iter vote input).sync 3 r).result = reducedValue op input := by
  obtain ⟨e, he⟩ := exists_elected vote
  obtain ⟨v, hv⟩ : ∃ v, reducedValue op input = some v := Option.isSome_iff_exists.mp
    (implementation_isSome T op (by simpa [Group.members] using G.nonempty))
  have hgot : (system G T op iter vote input).outAt 2 e r = toBytes v := by
    rw [System.outAt_of_some (roundAt_broadcast e), sync_reduce]
    change (if elected vote = some e.val then
      (if elected vote = some e.val then reducedValue op input else none).elim [] toBytes else []) = _
    rw [if_pos he, if_pos he, hv]
    rfl
  have hfind : (G.members.find? fun q => elected vote = some q.val) = some e := by
    have hsome : (G.members.find? fun q => elected vote = some q.val).isSome :=
      List.find?_isSome.mpr ⟨e, Group.mem_members e, by simpa using he⟩
    obtain ⟨q, hq⟩ := Option.isSome_iff_exists.mp hsome
    have hqe : elected vote = some q.val := by simpa using List.find?_some hq
    rw [hq, Subtype.ext (Option.some.inj (hqe.symm.trans he))]
  rw [System.sync_succ (roundAt_broadcast r), sync_reduce]
  change ((G.members.find? fun q => elected vote = some q.val).map fun q : G.Member =>
    ofBytes T.size ((system G T op iter vote input).outAt 2 q r)) = _
  rw [hfind, Option.map_some, hgot, ofBytes_toBytes, hv]

end

/-! ## 3. Alignment -/

theorem roundAt_of_ge {t : Nat} (h : 3 ≤ t) (r : G.Member) :
    (system G T op iter vote input).roundAt r t = none := by
  cases hround : (system G T op iter vote input).roundAt r t with
  | none => rfl
  | some phase =>
    obtain ⟨hmem, rfl⟩ := System.roundAt_eq_some.mp hround
    exact absurd h (not_le.mpr ((system G T op iter vote input).lab_lt r phase hmem))

theorem aligned : (system G T op iter vote input).Aligned where
  answers t r q := by
    match t with
    | 0 =>
      rw [System.needAt_of_some (roundAt_elect r), System.outAt_of_some (roundAt_elect q)]
      exact ⟨by decide, length_toBytes _⟩
    | 1 =>
      rw [System.needAt_of_some (roundAt_reduce r), System.outAt_of_some (roundAt_reduce q),
        sync_elect, sync_elect]
      change System.Answers (if elected vote = some r.val then some T.size else none)
        (if elected vote = some r.val then toBytes (input q) else [])
      split
      · exact ⟨T.size_pos, length_toBytes _⟩
      · exact rfl
    | 2 =>
      rw [System.needAt_of_some (roundAt_broadcast r), System.outAt_of_some (roundAt_broadcast q),
        sync_reduce, sync_reduce]
      change System.Answers (if elected vote = some q.val then some T.size else none)
        (if elected vote = some q.val then
          (if elected vote = some q.val then reducedValue op input else none).elim [] toBytes else [])
      obtain ⟨v, hv⟩ : ∃ v, reducedValue op input = some v := Option.isSome_iff_exists.mp
        (implementation_isSome T op (by simpa [Group.members] using G.nonempty))
      split
      · rw [hv]
        exact ⟨T.size_pos, length_toBytes _⟩
      · exact rfl
    | t + 3 =>
      rw [System.outAt_of_none (roundAt_of_ge (Nat.le_add_left 3 t) q), System.needAt,
        roundAt_of_ge (Nat.le_add_left 3 t) r]
      exact rfl

/-! ## 4. Agreement -/

/-- From the end of the election on, every member keeps the elected root. -/
theorem root_sync_three (r : G.Member) :
    ((system G T op iter vote input).sync 3 r).root = elected vote := by
  rw [System.sync_succ (roundAt_broadcast r), sync_reduce]
  rfl

theorem root_of_elected {w : Net G.Member Byte (Local T) Phase}
    (h : Inv (system G T op iter vote input) w) {r : G.Member}
    (hpast : (w.node r).todo ≠ [.elect, .reduce, .broadcast]) :
    (w.node r).st.root = elected vote := by
  have hst := h.st r
  have hsuffix : (w.node r).todo <:+ [.elect, .reduce, .broadcast] := h.suffix r
  rcases List.suffix_cons_iff.mp hsuffix with hall | hsuffix
  · exact absurd hall hpast
  rcases List.suffix_cons_iff.mp hsuffix with htodo | hsuffix
  · rw [htodo] at hst
    exact hst ▸ congrArg Local.root (sync_elect r)
  rcases List.suffix_cons_iff.mp hsuffix with htodo | hsuffix
  · rw [htodo] at hst
    exact hst ▸ congrArg Local.root (sync_reduce r)
  · rw [List.suffix_nil.mp hsuffix] at hst
    exact hst ▸ root_sync_three r

theorem result_of_returned {w : Net G.Member Byte (Local T) Phase}
    (h : Inv (system G T op iter vote input) w) {r : G.Member} (hdone : (w.node r).todo = []) :
    (w.node r).st.result = reducedValue op input := by
  have hst := h.st r
  rw [hdone] at hst
  exact hst ▸ sync_broadcast r

end

/-- The members elect one root. Every member that returns has the value of the
operator on the values of all members, in whatever order they are taken. A call
in which some member has not returned has a step left, no run of it is longer
than some number of steps, and every run can be continued until all members
have returned. -/
theorem all_reduce_agreement (G : Group) (T : IntType) (op : MPIOperator)
    (iter : G.Member → Phase → G.Order) (vote : G.Member → BitVec (8 * 8))
    (input : G.Member → T.Val) (cap : G.Member → G.Member → ℕ∞) (hcap : ∀ r q, 0 < cap r q) :
    (∃ root ∈ G.ranks, ∀ w, Run (allReduce G T op iter) cap
        (Net.init (fun _ => [.elect, .reduce, .broadcast]) (callState vote input)) w →
      (∀ r, (w.node r).todo ≠ [.elect, .reduce, .broadcast] → (w.node r).st.root = some root) ∧
      (∀ r, (w.node r).todo = [] → ∃ v, (w.node r).st.result = some v ∧
        ∀ order : G.Order, implementation T op (order.val.map input) = some v) ∧
      (¬ Finished w → ∃ w', Step (allReduce G T op iter) cap w w') ∧
      ∃ w', Run (allReduce G T op iter) cap w w' ∧ Finished w') ∧
    ∃ bound, ∀ n w, RunN (allReduce G T op iter) cap n
      (Net.init (fun _ => [.elect, .reduce, .broadcast]) (callState vote input)) w → n ≤ bound := by
  have hal : (system G T op iter vote input).Aligned := aligned
  obtain ⟨root, hroot⟩ := exists_elected vote
  refine ⟨⟨root.val, root.2, fun w hrun => ?_⟩,
    work (system G T op iter vote input)
      (Net.init (fun _ => [.elect, .reduce, .broadcast]) (callState vote input)),
    fun n w hrun => ?_⟩
  · have hinv := Reachable.inv hal (S := system G T op iter vote input) hrun
    refine ⟨fun r hpast => (root_of_elected hinv hpast).trans hroot, fun r hdone => ?_,
      progress hal hcap hinv, exists_finished hal hcap hinv⟩
    obtain ⟨v, hv⟩ : ∃ v, reducedValue op input = some v := Option.isSome_iff_exists.mp
      (implementation_isSome T op (by simpa [Group.members] using G.nonempty))
    refine ⟨v, (result_of_returned hinv hdone).trans hv, fun order => ?_⟩
    rw [implementation_perm T op (order.2.map input)]
    exact hv
  · exact length_le_work (S := system G T op iter vote input) hal (inv_init hal) hrun

def pair : Group := ⟨[3, 5], by decide, by decide⟩

theorem int32_size_pos : 0 < 4 := by decide

def int32 : IntType := ⟨4, true, int32_size_pos⟩

/-- Ranks 3 and 5 sum up their own numbers, over channels that hold one byte. -/
theorem all_reduce_agreement_pair : ∃ w : Net pair.Member Byte (Local int32) Phase,
    Run (allReduce pair int32 .sum fun _ _ => ⟨pair.members, .refl _⟩) (fun _ _ => 1)
      (Net.init (fun _ => [.elect, .reduce, .broadcast])
        (callState (fun _ => 7) fun r => BitVec.ofNat _ r.val)) w ∧
    Finished w ∧ ∀ r, (w.node r).st.result = some (8 : BitVec 32) := by
  obtain ⟨⟨root, -, hall⟩, -⟩ := all_reduce_agreement pair int32 .sum
    (fun _ _ => ⟨pair.members, .refl _⟩) (fun _ => 7) (fun r => BitVec.ofNat _ r.val)
    (fun _ _ => 1) fun _ _ => by simp
  obtain ⟨w, hrun, hdone⟩ := (hall _ .refl).2.2.2
  refine ⟨w, hrun, hdone, fun r => ?_⟩
  obtain ⟨v, hv, hfold⟩ := (hall w hrun).2.1 r (hdone r)
  have hsum : some (8 : BitVec 32) = some v := hfold ⟨pair.members, .refl _⟩
  rw [hv, hsum]

end MoeJit.Mpi
