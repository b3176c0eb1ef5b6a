import MoeJit.Lib.Rounding
import MoeJit.Topology.DragonflyMuse
import Mathlib.Logic.Equiv.Fin.Rotate

/-!
# The traffic between the groups of the dragonfly

`traffic_matrix` of `incremental_change_for_MUSE`, for flows between servers as
`prediction_callback_for_MUSE` makes them and any assignment of ranks to servers.

The flows hold the nodes of the servers, but are looked up as ranks, and what is no rank is taken
for the first server. `trafficMatrix_iff`: so the matrix is right for a list and its parts exactly
when every flow is taken for one between the same two groups.
-/

namespace MoeJit.Dragonfly

/-! ## 1. Model -/

/-- `float`: 23 digits after the first. -/
def float32 : FloatOps ℚ where
  ofInt n := Rounding.round 23 n
  add x y := Rounding.round 23 (x + y)
  sub x y := Rounding.round 23 (x - y)
  div x y := Rounding.round 23 (x / y)
  lt x y := x < y
  eq x y := x = y
  trunc x := if x < 0 then ⌈x⌉ else ⌊x⌋

namespace Params

variable (P : Params)

def serverCount : Nat := P.switchCount * P.p

/-- `servers.Get(nodeIndex)->GetId()`. -/
def serverID (nodeIndex : Nat) : Nat := P.switchCount + nodeIndex

/-- The group of a server. -/
def serverGroup (nodeIndex : Nat) : Nat := nodeIndex / (P.a * P.p)

/-- `rankID2nodeIndex`, in which a key that it does not have gets 0. -/
def rankID2nodeIndex (assignment : Equiv.Perm (Fin P.serverCount)) (rank : Nat) : Nat :=
  if h : rank < P.serverCount then assignment ⟨rank, h⟩ else 0

/-- Flows between servers, with the nodes of these. -/
def flowIDs (flows : List (Fin P.serverCount × Fin P.serverCount)) : List (Nat × Nat) :=
  flows.map fun flow => (P.serverID flow.1, P.serverID flow.2)

/-- The flows of `prediction_callback_for_MUSE`: from each rank to the next. -/
def predictionFlows (assignment : Equiv.Perm (Fin P.serverCount)) :
    List (Fin P.serverCount × Fin P.serverCount) :=
  (List.finRange P.serverCount).map fun rankID =>
    (assignment rankID, assignment (finRotate P.serverCount rankID))

/-! ## 2. Statement -/

/-- A flow has one end in each of two groups. -/
def Between (x y : Nat) (flow : Fin P.serverCount × Fin P.serverCount) : Prop :=
  (P.serverGroup flow.1 = x ∧ P.serverGroup flow.2 = y) ∨
    (P.serverGroup flow.1 = y ∧ P.serverGroup flow.2 = x)

instance (x y : Nat) : DecidablePred (P.Between x y) := fun _ =>
  inferInstanceAs (Decidable (_ ∨ _))

/-- The server for which a server of a flow is taken: that of the rank with the number of its node,
or the first one if there is no such rank. -/
def taken (assignment : Equiv.Perm (Fin P.serverCount)) (server : Fin P.serverCount) : Nat :=
  if h : P.switchCount + server < P.serverCount then assignment ⟨P.switchCount + server, h⟩ else 0

/-- The servers of a flow are taken for servers of the same groups: of the same two, or of one group
if they are of one. -/
def KeepsGroups (assignment : Equiv.Perm (Fin P.serverCount))
    (flow : Fin P.serverCount × Fin P.serverCount) : Prop :=
  let groups := (P.serverGroup flow.1, P.serverGroup flow.2)
  let read := (P.serverGroup (P.taken assignment flow.1), P.serverGroup (P.taken assignment flow.2))
  if groups.1 = groups.2 then read.1 = read.2 else read = groups ∨ read = groups.swap

/-- A flow is read as one between two groups. -/
def ReadBetween (assignment : Equiv.Perm (Fin P.serverCount)) (x y : Nat)
    (flow : Fin P.serverCount × Fin P.serverCount) : Prop :=
  (P.serverGroup (P.taken assignment flow.1) = x ∧ P.serverGroup (P.taken assignment flow.2) = y) ∨
    (P.serverGroup (P.taken assignment flow.1) = y ∧ P.serverGroup (P.taken assignment flow.2) = x)

instance (assignment : Equiv.Perm (Fin P.serverCount)) (x y : Nat) :
    DecidablePred (P.ReadBetween assignment x y) := fun _ => inferInstanceAs (Decidable (_ ∨ _))

/-- The matrix counts the flows between any two groups. -/
def CountsFlows (assignment : Equiv.Perm (Fin P.serverCount))
    (flows : List (Fin P.serverCount × Fin P.serverCount)) : Prop :=
  ∀ x y, x < P.g → y < P.g → x ≠ y →
    trafficMatrix float32 P (P.rankID2nodeIndex assignment) (P.flowIDs flows) x y =
      flows.countP fun flow => P.Between x y flow

end Params

/-! ## 3. The count -/

section

variable {P : Params} {assignment : Equiv.Perm (Fin P.serverCount)}
  {flows : List (Fin P.serverCount × Fin P.serverCount)}

theorem round_natCast {n : Nat} (h : n ≤ 2 ^ 24) : Rounding.round 23 n = n := by
  refine Rounding.round_of_representable ?_
  have hcast : ((n : ℤ) : ℚ) = n := Int.cast_natCast n
  rw [← hcast]
  refine Rounding.representable_intCast ?_
  rw [Nat.abs_cast]
  exact_mod_cast h

theorem add_one (n : Nat) : float32.add (min (2 ^ 24) n : Nat) (float32.ofInt 1) =
    (min (2 ^ 24) (n + 1) : Nat) := by
  have hone : float32.ofInt 1 = 1 := round_natCast (n := 1) (by norm_num)
  rw [hone]
  show Rounding.round 23 (_ + 1) = _
  rcases lt_or_ge n (2 ^ 24) with hlt | hge
  · rw [min_eq_right hlt.le, min_eq_right hlt, ← Nat.cast_succ]
    exact round_natCast hlt
  · rw [min_eq_left hge, min_eq_left (Nat.le_succ_of_le hge)]
    decide +kernel

theorem add_flow {matrix : Nat → Nat → ℚ} {x y n : Nat} (hne : x ≠ y)
    (hn : matrix x y = (min (2 ^ 24) n : Nat)) (i j : Nat) :
    set2 (set2 matrix i j (float32.add (matrix i j) (float32.ofInt 1))) j i
        (float32.add (set2 matrix i j (float32.add (matrix i j) (float32.ofInt 1)) j i)
          (float32.ofInt 1)) x y =
      (min (2 ^ 24) (n + if (i = x ∧ j = y) ∨ (i = y ∧ j = x) then 1 else 0) : Nat) := by
  simp only [set2_apply]
  by_cases hback : x = j ∧ y = i
  · obtain ⟨rfl, rfl⟩ := hback
    rw [if_pos ⟨rfl, rfl⟩, if_neg fun h => hne h.1, hn, add_one, if_pos (.inr ⟨rfl, rfl⟩)]
  · by_cases hthere : x = i ∧ y = j
    · obtain ⟨rfl, rfl⟩ := hthere
      rw [if_neg hback, if_pos ⟨rfl, rfl⟩, hn, add_one, if_pos (.inl ⟨rfl, rfl⟩)]
    · have hnot : ¬((i = x ∧ j = y) ∨ i = y ∧ j = x) := by
        rintro (⟨h, h'⟩ | ⟨h, h'⟩)
        · exact hthere ⟨h.symm, h'.symm⟩
        · exact hback ⟨h'.symm, h.symm⟩
      rw [if_neg hback, if_neg hthere, hn, if_neg hnot, add_zero]

/-- An entry is the number of flows that are read as between the two groups. -/
theorem trafficMatrix_eq {x y : Nat} (hne : x ≠ y) :
    trafficMatrix float32 P (P.rankID2nodeIndex assignment) (P.flowIDs flows) x y =
      (min (2 ^ 24) (flows.countP fun flow => P.ReadBetween assignment x y flow) : Nat) := by
  unfold trafficMatrix Params.flowIDs
  rw [List.foldl_map]
  have hloop : ∀ (flows : List (Fin P.serverCount × Fin P.serverCount)) (matrix : Nat → Nat → ℚ)
      (n : Nat), matrix x y = (min (2 ^ 24) n : Nat) →
      flows.foldl (fun matrix flow =>
        let groupIndex1 := P.rankID2nodeIndex assignment (P.serverID flow.1) / (P.a * P.p)
        let groupIndex2 := P.rankID2nodeIndex assignment (P.serverID flow.2) / (P.a * P.p)
        let matrix := set2 matrix groupIndex1 groupIndex2
          (float32.add (matrix groupIndex1 groupIndex2) (float32.ofInt 1))
        set2 matrix groupIndex2 groupIndex1
          (float32.add (matrix groupIndex2 groupIndex1) (float32.ofInt 1))) matrix x y =
        (min (2 ^ 24) (n + flows.countP fun flow => P.ReadBetween assignment x y flow) : Nat) := by
    intro flows
    induction flows with
    | nil => exact fun _ _ h => h
    | cons flow flows ih =>
      intro matrix n hn
      rw [List.foldl_cons, List.countP_cons, Nat.add_comm (List.countP _ _), ← Nat.add_assoc]
      refine ih _ _ ?_
      simp only [decide_eq_true_eq]
      exact add_flow hne hn _ _
  rw [hloop flows _ 0 (round_natCast (n := 0) (Nat.zero_le _)), Nat.zero_add]

theorem serverGroup_lt (server : Fin P.serverCount) : P.serverGroup server < P.g := by
  have hlt : (server : Nat) < P.g * (P.a * P.p) := by
    rw [← Nat.mul_assoc]
    exact server.isLt
  exact Nat.div_lt_of_lt_mul (by rwa [Nat.mul_comm] at hlt)

theorem taken_lt (flow : Fin P.serverCount) : P.taken assignment flow < P.serverCount := by
  unfold Params.taken
  split
  · exact Fin.isLt _
  · exact flow.pos

/-- Such a flow is read between the groups that it is between. -/
theorem keepsGroups_iff {flow : Fin P.serverCount × Fin P.serverCount} :
    P.KeepsGroups assignment flow ↔
      ∀ x y, x < P.g → y < P.g → x ≠ y →
        (P.ReadBetween assignment x y flow ↔ P.Between x y flow) := by
  have hread : ∀ server, P.serverGroup (P.taken assignment server) < P.g := fun server =>
    serverGroup_lt ⟨_, taken_lt server⟩
  have hgroup : ∀ server : Fin P.serverCount, P.serverGroup server < P.g := serverGroup_lt
  have hread₁ := hread flow.1
  have hread₂ := hread flow.2
  have hgroup₁ := hgroup flow.1
  have hgroup₂ := hgroup flow.2
  unfold Params.KeepsGroups Params.ReadBetween Params.Between
  generalize P.serverGroup (P.taken assignment flow.1) = r₁ at hread₁ ⊢
  generalize P.serverGroup (P.taken assignment flow.2) = r₂ at hread₂ ⊢
  generalize P.serverGroup flow.1 = g₁ at hgroup₁ ⊢
  generalize P.serverGroup flow.2 = g₂ at hgroup₂ ⊢
  simp only [Prod.swap_prod_mk, Prod.mk.injEq]
  constructor
  · intro h x y _ _ hne
    split at h <;> omega
  · intro h
    split
    · next hinner =>
      by_contra houter
      have := (h r₁ r₂ hread₁ hread₂ houter).mp (.inl ⟨rfl, rfl⟩)
      omega
    · next houter =>
      have := (h g₁ g₂ hgroup₁ hgroup₂ houter).mpr (.inl ⟨rfl, rfl⟩)
      omega

/-- For every assignment and all flows between servers, the matrix counts the flows and those of every
part of the list exactly if each flow is taken for one between the same groups, and no number of
flows is more than a `float` counts. -/
theorem trafficMatrix_iff (P : Params) (assignment : Equiv.Perm (Fin P.serverCount))
    (flows : List (Fin P.serverCount × Fin P.serverCount)) :
    (∀ part, part.Sublist flows → P.CountsFlows assignment part) ↔
      (∀ flow ∈ flows, P.KeepsGroups assignment flow) ∧
      ∀ x y, x < P.g → y < P.g → x ≠ y → (flows.countP fun flow => P.Between x y flow) ≤ 2 ^ 24 := by
  constructor
  · intro hparts
    refine ⟨fun flow hflow => keepsGroups_iff.mpr fun x y hx hy hne => ?_,
      fun x y hx hy hne => ?_⟩
    · have hone := hparts [flow] (List.singleton_sublist.mpr hflow) x y hx hy hne
      rw [trafficMatrix_eq hne, Nat.cast_inj, List.countP_singleton, List.countP_singleton] at hone
      by_cases hread : P.ReadBetween assignment x y flow
      · by_cases hbetween : P.Between x y flow
        · exact iff_of_true hread hbetween
        · rw [if_pos (decide_eq_true hread), if_neg fun h => hbetween (of_decide_eq_true h)] at hone
          exact absurd hone (by decide)
      · by_cases hbetween : P.Between x y flow
        · rw [if_neg fun h => hread (of_decide_eq_true h), if_pos (decide_eq_true hbetween)] at hone
          exact absurd hone (by decide)
        · exact iff_of_false hread hbetween
    · have hall := hparts flows (List.Sublist.refl _) x y hx hy hne
      rw [trafficMatrix_eq hne, Nat.cast_inj] at hall
      exact hall ▸ min_le_left _ _
  · rintro ⟨hkeeps, hcount⟩ part hpart x y hx hy hne
    have hsame : (part.countP fun flow => P.ReadBetween assignment x y flow) =
        part.countP fun flow => P.Between x y flow :=
      List.countP_congr fun flow hflow => by
        rw [decide_eq_true_eq, decide_eq_true_eq]
        exact keepsGroups_iff.mp (hkeeps flow (hpart.subset hflow)) x y hx hy hne
    have hle : (part.countP fun flow => P.Between x y flow) ≤ 2 ^ 24 :=
      hpart.countP_le.trans (hcount x y hx hy hne)
    rw [trafficMatrix_eq hne, hsame, min_eq_right hle]

end

/-- Servers 0 and 8 have the nodes 36 and 44: they are read rightly if they are those of the ranks 36
and 44. -/
example : (params 2).KeepsGroups ((Equiv.swap ⟨0, by decide⟩ ⟨36, by decide⟩).trans
    (Equiv.swap ⟨8, by decide⟩ ⟨44, by decide⟩)) (⟨0, by decide⟩, ⟨8, by decide⟩) := by
  unfold Params.KeepsGroups
  decide +kernel

/-! ## 4. The last server -/

/-- The flows of a prediction, for `k = 2` and ranks in the order of the servers: one of them is
between the second group and the third, and none is read as such. -/
theorem prediction_missed :
    ¬(params 2).CountsFlows (Equiv.refl _) ((params 2).predictionFlows (Equiv.refl _)) := by
  intro hcounts
  have hentry := hcounts 1 2 (by decide) (by decide) (by decide)
  rw [trafficMatrix_eq (by decide), Nat.cast_inj] at hentry
  revert hentry
  decide +kernel

end MoeJit.Dragonfly
