import MoeJit.Topology.DemandRuns
import Mathlib.Algebra.Order.Archimedean.Basic

/-!
# Termination of the demand estimation

The loops of `estimateFlow`. `estimateFlow_returns_iff`: the outer loop ends as soon as the loops at
the receivers do, for a flow that has converged only sinks, past the equal share of its receiver and
then no more (`stage`). `estimateFlow_returns`: these end where all demands are positive.
`estimateFlow_never_returns`: where one is zero, the demand that is added up anew need not grow.
-/

namespace MoeJit.Hedera

open List
open Option (bind_eq_bind bind_eq_some_iff bind_some map_eq_some_iff)

variable {value : Flow → ℚ} {flows : CountedFlows} {flow : Flow}

section

variable {hosts : List Nat} {forwardFlows backwardFlows : FlowCountMap} {fuel fuel' : Nat}

variable {st st' : Estimation}

/-! ## 1. The loop at a receiver -/

/-- The loop of a receiver comes to its end. -/
def Ends (value : Flow → ℚ) (flows : CountedFlows) : Prop :=
  ∃ fuel result, receiverLoop value flows fuel 0 (1 / number flows) (fun _ => true) = some result

theorem exists_pos_le (h : ∀ p ∈ flows, 0 < value p.1) :
    ∃ least, 0 < least ∧ ∀ p ∈ flows, least ≤ value p.1 * p.2 := by
  induction flows with
  | nil => exact ⟨1, one_pos, fun p hp => (nomatch hp)⟩
  | cons p flows ih =>
    obtain ⟨least, hpos, hleast⟩ := ih fun q hq => h q (mem_cons_of_mem p hq)
    have hp : 0 < value p.1 * p.2 := mul_pos (h p mem_cons_self) (Nat.cast_pos.mpr p.2.pos)
    refine ⟨min least (value p.1 * p.2), lt_min hpos hp, fun q hq => ?_⟩
    rcases mem_cons.mp hq with rfl | hq
    · exact min_le_right _ _
    · exact (min_le_left _ _).trans (hleast q hq)

theorem total_nonneg (h : ∀ p ∈ flows, 0 ≤ value p.1) : 0 ≤ total value flows := by
  have hle := @total_le (fun _ => 0) value flows h
  rwa [total_const, zero_mul] at hle

theorem le_total (h : ∀ p ∈ flows, 0 ≤ value p.1) {p : Flow × ℕ+} (hp : p ∈ flows) :
    value p.1 * p.2 ≤ total value flows := by
  obtain ⟨before, after, rfl⟩ := append_of_mem hp
  have hbefore := total_nonneg fun q hq => h q (mem_append_left _ hq)
  have hafter := total_nonneg fun q hq =>
    h q (mem_append_right _ (mem_cons_of_mem p hq))
  have hsplit : total value (before ++ p :: after) =
      total value before + (value p.1 * p.2 + total value after) := by
    rw [← total_cons]
    unfold total
    rw [map_append, sum_append]
  linarith

/-- Positive demands: the demand that is added up grows in each round but the last, and so the
estimation sinks below all demands. -/
theorem ends_of_pos (h : ∀ p ∈ flows, 0 < value p.1) : Ends value flows := by
  obtain ⟨least, hpos, hleast⟩ := exists_pos_le h
  have hbelow : ∀ estimation : ℚ, ∀ p ∈ flows.filter fun p => value p.1 < estimation,
      0 ≤ value p.1 := fun _ p hp => (h p (mem_filter.mp hp).1).le
  -- by induction on how often the demand can grow
  have hloop : ∀ (rounds : Nat) (demand estimation : ℚ) (exceeded : Flow → Bool),
      1 - demand ≤ rounds * least → (rounds = 0 → estimation ≤ 0) →
      ∃ fuel result, receiverLoop value flows fuel demand estimation exceeded = some result := by
    intro rounds
    induction rounds with
    | zero =>
      intro demand estimation exceeded _ hestimation
      have hnone : (flows.any fun p => value p.1 < estimation) = false :=
        any_eq_false.mpr fun p hp => by
          rw [decide_eq_true_eq, not_lt]
          exact (hestimation rfl).trans (h p hp).le
      refine ⟨1, ?_⟩
      unfold receiverLoop
      simp only [receiverRound_eq, hnone, Bool.false_eq_true, if_false]
      split
      · exact ⟨_, rfl⟩
      · exact ⟨_, rfl⟩
    | succ rounds ih =>
      intro demand estimation exceeded hleft _
      cases hany : flows.any fun p => value p.1 < estimation with
      | false =>
        refine ⟨1, ?_⟩
        unfold receiverLoop
        simp only [receiverRound_eq, hany, Bool.false_eq_true, if_false]
        split
        · exact ⟨_, rfl⟩
        · exact ⟨_, rfl⟩
      | true =>
        obtain ⟨p, hp, hlt⟩ := any_eq_true.mp hany
        have hgrows : least ≤ total value (flows.filter fun p => value p.1 < estimation) :=
          (hleast p hp).trans (le_total (hbelow estimation) (mem_filter.mpr ⟨hp, hlt⟩))
        have hleft' : 1 - (demand + total value (flows.filter fun p => value p.1 < estimation)) ≤
            rounds * least := by
          rw [Nat.cast_succ, add_mul, one_mul] at hleft
          linarith
        have hend : rounds = 0 → (1 - (demand + total value (flows.filter fun p =>
            value p.1 < estimation))) / (number (flows.filter fun p =>
              !decide (value p.1 < estimation)) : ℚ) ≤ 0 := by
          rintro rfl
          rw [Nat.cast_zero, zero_mul] at hleft'
          exact div_nonpos_of_nonpos_of_nonneg hleft' (Nat.cast_nonneg _)
        obtain ⟨fuel, result, hrest⟩ := ih _ _ (receiverRound value flows demand estimation
          exceeded).exceeded hleft' hend
        by_cases hremaining : number (flows.filter fun p => !decide (value p.1 < estimation)) ≤ 0
        · refine ⟨1, ?_⟩
          unfold receiverLoop
          simp only [receiverRound_eq, if_pos hremaining]
          exact ⟨_, rfl⟩
        · refine ⟨fuel + 1, result, ?_⟩
          rw [receiverRound_eq] at hrest
          unfold receiverLoop
          simp only [receiverRound_eq, hany, if_neg hremaining, if_true]
          exact hrest
  obtain ⟨rounds, hrounds⟩ := exists_nat_ge (1 / least)
  refine hloop (rounds + 1) 0 _ _ ?_ fun hzero => absurd hzero (Nat.succ_ne_zero rounds)
  rw [div_le_iff₀ hpos] at hrounds
  rw [sub_zero, Nat.cast_succ, add_mul]
  linarith

/-- The loop does not end once the flows below the estimation have no demand altogether and the
estimation is what is left for the others. -/
theorem receiverLoop_stalls {value : Flow → ℚ} {flows : CountedFlows} {demand estimation : ℚ}
    (hbelow : (flows.any fun p => value p.1 < estimation) = true)
    (hzero : total value (flows.filter fun p => value p.1 < estimation) = 0)
    (hremaining : 0 < number (flows.filter fun p => !decide (value p.1 < estimation)))
    (hestimation : estimation =
      (1 - demand) / number (flows.filter fun p => !decide (value p.1 < estimation)))
    (fuel : Nat) (exceeded : Flow → Bool) :
    receiverLoop value flows fuel demand estimation exceeded = none := by
  induction fuel generalizing exceeded with
  | zero => rfl
  | succ fuel ih =>
    unfold receiverLoop
    simp only [receiverRound_eq, hbelow, hzero, add_zero, if_neg (Nat.not_le.mpr hremaining),
      if_true, ← hestimation]
    exact ih _

end

/-! ## 2. Stages -/

/-- How far a flow has come: it has converged, at the equal share of its receiver, below. -/
def stage (backwardFlows : FlowCountMap) (st : Estimation) (flow : Flow) : ℕ :=
  if st.converged flow then
    if 1 / (number (incoming backwardFlows flow.2) : ℚ) < st.value flow then 1
    else if st.value flow = 1 / (number (incoming backwardFlows flow.2) : ℚ) then 2
    else 3
  else 0

/-- The stages of all flows together. -/
def stages (hosts : List Nat) (backwardFlows : FlowCountMap) (st : Estimation) : ℕ :=
  ((hosts.flatMap (incoming backwardFlows)).map fun p => stage backwardFlows st p.1).sum

/-- The same values, converged or not. -/
structure Same (st st' : Estimation) : Prop where
  value : st'.value = st.value
  converged : st'.converged = st.converged

section

variable {hosts : List Nat} {forwardFlows backwardFlows : FlowCountMap} {fuel : Nat}
  {st st' : Estimation} {host : Nat}

theorem stage_le (backwardFlows : FlowCountMap) (st : Estimation) (flow : Flow) :
    stage backwardFlows st flow ≤ 3 := by
  unfold stage
  split
  · split
    · norm_num
    · split
      · norm_num
      · exact le_refl 3
  · norm_num

theorem stages_le (hosts : List Nat) (backwardFlows : FlowCountMap) (st : Estimation) :
    stages hosts backwardFlows st ≤ (hosts.flatMap (incoming backwardFlows)).length * 3 := by
  unfold stages
  have hle := sum_le_card_nsmul
    ((hosts.flatMap (incoming backwardFlows)).map fun p => stage backwardFlows st p.1) 3
    fun n hn => by
      obtain ⟨p, -, rfl⟩ := mem_map.mp hn
      exact stage_le backwardFlows st p.1
  rwa [length_map, smul_eq_mul] at hle

theorem stage_congr (hconv : st'.converged flow = st.converged flow)
    (hval : st.converged flow = true → st'.value flow = st.value flow) :
    stage backwardFlows st' flow = stage backwardFlows st flow := by
  unfold stage
  rw [hconv]
  split
  · next h => rw [hval h]
  · rfl

theorem stages_congr (hconv : st'.converged = st.converged)
    (hval : ∀ flow, st.converged flow = true → st'.value flow = st.value flow) :
    stages hosts backwardFlows st' = stages hosts backwardFlows st := by
  unfold stages
  refine congrArg List.sum (map_congr_left fun p _ => ?_)
  exact stage_congr (congrFun hconv p.1) (hval p.1)

/-- A flow that exceeds the estimation of its receiver moves on, or stays what it is. -/
theorem stage_exceeded {estimation : ℚ}
    (hle : estimation ≤ 1 / (number (incoming backwardFlows flow.2) : ℚ))
    (hge : 1 / (number (incoming backwardFlows flow.2) : ℚ) ≤ st.value flow)
    (hval : st'.value flow = settled estimation (st.value flow))
    (hconv : st'.converged flow = true) :
    (st'.value flow = st.value flow ∧ st'.converged flow = st.converged flow) ∨
      stage backwardFlows st flow < stage backwardFlows st' flow := by
  unfold stage
  rw [hconv, if_pos rfl]
  cases hbefore : st.converged flow with
  | false =>
    right
    rw [if_neg Bool.false_ne_true]
    split
    · exact one_pos
    · split
      · exact two_pos
      · exact three_pos
  | true =>
    rw [if_pos rfl, hval]
    unfold settled
    split
    · -- a flow that is cut comes down to the equal share or below
      next hfar =>
      right
      have hnot : ¬1 / (number (incoming backwardFlows flow.2) : ℚ) < estimation := not_lt.mpr hle
      rw [if_neg hnot]
      split
      · split
        · norm_num
        · norm_num
      · next hsmall =>
        have hequal : st.value flow = 1 / (number (incoming backwardFlows flow.2) : ℚ) :=
          le_antisymm (not_lt.mp hsmall) hge
        rw [if_pos hequal, if_neg]
        · norm_num
        · rintro rfl
          rw [hequal, sub_self, abs_zero] at hfar
          exact absurd hfar (not_lt.mpr threshold_nonneg)
    · exact .inl ⟨rfl, rfl⟩

theorem destinationSearch_stage (h : destinationSearch backwardFlows fuel st host = some st') :
    ∀ flow, (st'.value flow = st.value flow ∧ st'.converged flow = st.converged flow) ∨
      ((∃ p ∈ incoming backwardFlows host, p.1 = flow) ∧
        stage backwardFlows st flow < stage backwardFlows st' flow) := by
  intro flow
  rcases le_or_gt (total st.value (incoming backwardFlows host)) 1 with hwithin | hover
  · obtain ⟨hval, hconv, -⟩ := destinationSearch_within hwithin h
    rw [hval, hconv]
    exact .inl ⟨rfl, rfl⟩
  · obtain ⟨result, hloop, hval, hconv, -⟩ := destinationSearch_over hover h
    by_cases hflow : result.2 flow = true ∧ ∃ p ∈ incoming backwardFlows host, p.1 = flow
    · obtain ⟨hexceeded, p, hp, rfl⟩ := hflow
      obtain ⟨hle, hge⟩ :=
        (receiverLoop_spec (number_pos_of_total hover) hloop).le_share hp hexceeded
      have hmem : ∃ q ∈ incoming backwardFlows host, q.1 = p.1 := ⟨p, hp, rfl⟩
      have hany : ((incoming backwardFlows host).any fun q => q.1 = p.1) = true :=
        any_eq_true.mpr ⟨p, hp, decide_eq_true rfl⟩
      have hafter : st'.converged p.1 = true := by
        rw [hconv, hexceeded, hany, Bool.true_and, Bool.or_true]
      rw [← mem_incoming hp] at hle hge
      refine (stage_exceeded hle hge ?_ hafter).imp_right fun hlt => ⟨hmem, hlt⟩
      rw [hval, if_pos ⟨hexceeded, hmem⟩]
    · left
      rw [hval, if_neg hflow, hconv]
      refine ⟨rfl, ?_⟩
      cases hexceeded : result.2 flow with
      | false => rw [Bool.false_and, Bool.or_false]
      | true =>
        have hany : ((incoming backwardFlows host).any fun p => p.1 = flow) = false :=
          any_eq_false.mpr fun p hp heq =>
            hflow ⟨hexceeded, p, hp, of_decide_eq_true heq⟩
        rw [hany, Bool.and_false, Bool.or_false]

theorem destinationSearch_flag (h : destinationSearch backwardFlows fuel st host = some st')
    (hsame : st'.value = st.value) : st'.flag = st.flag := by
  rcases le_or_gt (total st.value (incoming backwardFlows host)) 1 with hwithin | hover
  · exact (destinationSearch_within hwithin h).2.2
  · obtain ⟨result, -, hval, -, hflag⟩ := destinationSearch_over hover h
    rw [hflag, Bool.or_eq_left_iff_imp]
    intro hany
    obtain ⟨p, hp, hchanged⟩ := any_eq_true.mp hany
    obtain ⟨hexceeded, hfar⟩ := Bool.and_eq_true_iff.mp hchanged
    have hfar := of_decide_eq_true hfar
    have hp' := hval p.1
    rw [hsame, if_pos ⟨hexceeded, p, hp, rfl⟩] at hp'
    unfold settled at hp'
    rw [if_pos hfar] at hp'
    rw [hp', sub_self, abs_zero] at hfar
    exact absurd hfar (not_lt.mpr threshold_nonneg)

theorem destinationSearch_stages (hhost : host ∈ hosts)
    (h : destinationSearch backwardFlows fuel st host = some st') :
    (Same st st' ∧ st'.flag = st.flag) ∨
      stages hosts backwardFlows st < stages hosts backwardFlows st' := by
  have hstage := destinationSearch_stage h
  by_cases hsame : ∀ flow, st'.value flow = st.value flow ∧ st'.converged flow = st.converged flow
  · have hval : st'.value = st.value := funext fun flow => (hsame flow).1
    exact .inl ⟨⟨hval, funext fun flow => (hsame flow).2⟩, destinationSearch_flag h hval⟩
  · right
    simp only [not_forall] at hsame
    obtain ⟨flow, hchanged⟩ := hsame
    obtain ⟨⟨p, hp, rfl⟩, hlt⟩ := (hstage flow).resolve_left hchanged
    refine sum_lt_sum _ _ (fun q _ => ?_) ⟨p, mem_flatMap.mpr ⟨host, hhost, hp⟩, hlt⟩
    rcases hstage q.1 with ⟨hval, hconv⟩ | ⟨-, hlt⟩
    · exact (stage_congr hconv fun _ => hval).ge
    · exact hlt.le

theorem foldlM_stages {receivers : List Nat} (hsubset : receivers ⊆ hosts)
    (h : receivers.foldlM (destinationSearch backwardFlows fuel) st = some st') :
    (Same st st' ∧ st'.flag = st.flag) ∨
      stages hosts backwardFlows st < stages hosts backwardFlows st' := by
  induction receivers generalizing st with
  | nil =>
    cases h
    exact .inl ⟨⟨rfl, rfl⟩, rfl⟩
  | cons host receivers ih =>
    rw [foldlM_cons, bind_eq_bind, bind_eq_some_iff] at h
    obtain ⟨middle, hsearch, hrest⟩ := h
    obtain ⟨hhost, hsubset⟩ := cons_subset.mp hsubset
    rcases destinationSearch_stages hhost hsearch with ⟨hsame, hflag⟩ | hlt
    · rcases ih hsubset hrest with ⟨hsame', hflag'⟩ | hlt'
      · exact .inl ⟨⟨hsame'.value.trans hsame.value, hsame'.converged.trans hsame.converged⟩,
          hflag'.trans hflag⟩
      · refine .inr (lt_of_eq_of_lt ?_ hlt')
        exact (stages_congr hsame.converged fun flow _ => congrFun hsame.value flow).symm
    · rcases ih hsubset hrest with ⟨hsame', -⟩ | hlt'
      · refine .inr (hlt.trans_eq ?_)
        exact (stages_congr hsame'.converged fun flow _ => congrFun hsame'.value flow).symm
      · exact .inr (hlt.trans hlt')

end

/-! ## 3. Source searches -/

/-- The flows of a source that have not converged are within the threshold of the share. -/
def Quiet (forwardFlows : FlowCountMap) (st : Estimation) (host : Nat) : Prop :=
  ∀ p ∈ outgoing forwardFlows host, st.converged p.1 = false →
    |st.value p.1 - share st (outgoing forwardFlows host)| ≤ threshold

section

variable {hosts : List Nat} {forwardFlows backwardFlows : FlowCountMap} {fuel : Nat}
  {st st' : Estimation} {host : Nat}

theorem share_congr (hconv : st'.converged = st.converged)
    (hval : ∀ flow, st.converged flow = true → st'.value flow = st.value flow) :
    share st' flows = share st flows := by
  unfold share
  rw [hconv, total_congr fun p hp => hval p.1 (mem_filter.mp hp).2]

theorem Quiet.same (h : Quiet forwardFlows st host) (hsame : Same st st') :
    Quiet forwardFlows st' host := by
  intro p hp hfalse
  rw [hsame.converged] at hfalse
  rw [share_congr hsame.converged fun flow _ => congrFun hsame.value flow, hsame.value]
  exact h p hp hfalse

theorem sourceSearch_converged : (sourceSearch forwardFlows st host).converged = st.converged := by
  rw [sourceSearch_eq]
  exact Estimation.converged_assignAll

theorem sourceSearch_value (flow : Flow) : (sourceSearch forwardFlows st host).value flow =
    if (!st.converged flow) = true ∧ ∃ p ∈ outgoing forwardFlows host, p.1 = flow then
      settled (share st (outgoing forwardFlows host)) (st.value flow)
    else st.value flow := by
  rw [sourceSearch_eq]
  exact Estimation.value_assignAll flow

theorem sourceSearch_value_converged (h : st.converged flow = true) :
    (sourceSearch forwardFlows st host).value flow = st.value flow := by
  rw [sourceSearch_value, if_neg]
  rintro ⟨hfalse, -⟩
  rw [h] at hfalse
  cases hfalse

theorem sourceSearch_quiet (forwardFlows : FlowCountMap) (st : Estimation) (host other : Nat)
    (h : other = host ∨ Quiet forwardFlows st other) :
    Quiet forwardFlows (sourceSearch forwardFlows st host) other := by
  intro p hp hfalse
  rw [sourceSearch_converged] at hfalse
  rw [share_congr sourceSearch_converged fun flow => sourceSearch_value_converged,
    sourceSearch_value, hfalse]
  by_cases hmem : ∃ q ∈ outgoing forwardFlows host, q.1 = p.1
  · -- a flow of two sources is one of the same
    obtain ⟨q, hq, heq⟩ := hmem
    have hhost : other = host := by rw [← mem_outgoing hp, ← heq, mem_outgoing hq]
    subst hhost
    rw [if_pos ⟨rfl, q, hq, heq⟩]
    exact abs_settled_le _ _
  · rw [if_neg fun hflow => hmem hflow.2]
    rcases h with rfl | hquiet
    · exact absurd ⟨p, hp, rfl⟩ hmem
    · exact hquiet p hp hfalse

theorem foldl_sourceSearch_quiet (sources : List Nat) (st : Estimation) (other : Nat)
    (h : other ∈ sources ∨ Quiet forwardFlows st other) :
    Quiet forwardFlows (sources.foldl (sourceSearch forwardFlows) st) other := by
  induction sources generalizing st with
  | nil => exact h.resolve_left not_mem_nil
  | cons host sources ih =>
    refine ih _ ?_
    rcases h with hmem | hquiet
    · rcases mem_cons.mp hmem with heq | hmem
      · exact .inr (sourceSearch_quiet forwardFlows st host other (.inl heq))
      · exact .inl hmem
    · exact .inr (sourceSearch_quiet forwardFlows st host other (.inr hquiet))

theorem foldl_sourceSearch_stages (sources : List Nat) (st : Estimation) :
    stages hosts backwardFlows (sources.foldl (sourceSearch forwardFlows) st) =
      stages hosts backwardFlows st := by
  induction sources generalizing st with
  | nil => rfl
  | cons host sources ih =>
    rw [foldl_cons, ih]
    exact stages_congr sourceSearch_converged fun flow => sourceSearch_value_converged

theorem sourceSearch_same (h : Quiet forwardFlows st host) :
    Same st (sourceSearch forwardFlows st host) ∧
      (sourceSearch forwardFlows st host).flag = st.flag := by
  refine ⟨⟨funext fun flow => ?_, sourceSearch_converged⟩, ?_⟩
  · rw [sourceSearch_value]
    split
    · next hflow =>
      obtain ⟨hfalse, p, hp, rfl⟩ := hflow
      exact settled_of_le (h p hp (by rwa [Bool.not_eq_true'] at hfalse))
    · rfl
  · rw [sourceSearch_eq, Estimation.flag_assignAll, Bool.or_eq_left_iff_imp]
    intro hany
    obtain ⟨p, hp, hchanged⟩ := any_eq_true.mp hany
    obtain ⟨hfalse, hfar⟩ := Bool.and_eq_true_iff.mp hchanged
    rw [Bool.not_eq_true'] at hfalse
    exact absurd (of_decide_eq_true hfar) (not_lt.mpr (h p hp hfalse))

theorem foldl_sourceSearch_same (sources : List Nat) (st : Estimation)
    (h : ∀ host ∈ sources, Quiet forwardFlows st host) :
    Same st (sources.foldl (sourceSearch forwardFlows) st) ∧
      (sources.foldl (sourceSearch forwardFlows) st).flag = st.flag := by
  induction sources generalizing st with
  | nil => exact ⟨⟨rfl, rfl⟩, rfl⟩
  | cons host sources ih =>
    obtain ⟨hsame, hflag⟩ := sourceSearch_same (h host mem_cons_self)
    obtain ⟨hsame', hflag'⟩ := ih (sourceSearch forwardFlows st host) fun other hother =>
      (h other (mem_cons_of_mem host hother)).same hsame
    exact ⟨⟨hsame'.value.trans hsame.value, hsame'.converged.trans hsame.converged⟩,
      hflag'.trans hflag⟩

/-! ## 4. The outer loop -/

/-- The search of a receiver depends on the values and on what has converged. -/
theorem destinationSearch_congr {start start' : Estimation} (hsame : Same start start')
    (h : destinationSearch backwardFlows fuel start host = some st) :
    ∃ st', destinationSearch backwardFlows fuel start' host = some st' ∧ Same st st' := by
  rw [destinationSearch_eq] at h
  rw [destinationSearch_eq, hsame.value]
  split at h
  · next hwithin =>
    cases h
    rw [if_pos hwithin]
    refine ⟨_, rfl, ?_, ?_⟩
    · rw [(start'.readAll_spec _).1, (start.readAll_spec _).1, hsame.value]
    · rw [(start'.readAll_spec _).2.1, (start.readAll_spec _).2.1, hsame.converged]
  · next hover =>
    rw [if_neg hover]
    obtain ⟨result, hloop, rfl⟩ := map_eq_some_iff.mp h
    rw [hloop]
    refine ⟨_, rfl, funext fun flow => ?_, ?_⟩
    · refine (Estimation.value_assignAll flow).trans ?_
      refine Eq.trans ?_ (Estimation.value_assignAll flow).symm
      rw [(start'.readAll_spec _).1, (start.readAll_spec _).1, hsame.value]
    · dsimp only
      rw [hsame.converged]

theorem foldlM_congr {receivers : List Nat} {start start' : Estimation} (hsame : Same start start')
    (h : receivers.foldlM (destinationSearch backwardFlows fuel) start = some st) :
    ∃ st', receivers.foldlM (destinationSearch backwardFlows fuel) start' = some st' ∧
      Same st st' := by
  induction receivers generalizing start start' with
  | nil =>
    cases h
    exact ⟨start', rfl, hsame⟩
  | cons host receivers ih =>
    rw [foldlM_cons, bind_eq_bind, bind_eq_some_iff] at h
    obtain ⟨middle, hsearch, hrest⟩ := h
    obtain ⟨middle', hsearch', hmiddle⟩ := destinationSearch_congr hsame hsearch
    obtain ⟨st', hrest', hst'⟩ := ih hmiddle hrest
    refine ⟨st', ?_, hst'⟩
    rw [foldlM_cons, hsearch']
    exact hrest'

theorem iteration_stages (h : iteration hosts forwardFlows backwardFlows fuel st = some st') :
    stages hosts backwardFlows st < stages hosts backwardFlows st' ∨
      ∃ st'', iteration hosts forwardFlows backwardFlows fuel st' = some st'' ∧
        st''.flag = false := by
  unfold iteration at h
  rcases foldlM_stages (List.Subset.refl hosts) h with ⟨hsame, -⟩ | hlt
  · right
    have hquiet : ∀ host ∈ hosts, Quiet forwardFlows st' host := fun host hhost =>
      (foldl_sourceSearch_quiet hosts _ host (.inl hhost)).same hsame
    obtain ⟨hsources, hflag⟩ := @foldl_sourceSearch_same forwardFlows hosts
      { st' with flag := false } hquiet
    -- so the receivers find what they found before
    have hagain : Same (sourceSearches hosts forwardFlows st)
        (sourceSearches hosts forwardFlows st') :=
      ⟨hsources.value.trans hsame.value, hsources.converged.trans hsame.converged⟩
    obtain ⟨st'', hst'', hend⟩ := foldlM_congr hagain h
    refine ⟨st'', hst'', ?_⟩
    have hunchanged : Same (sourceSearches hosts forwardFlows st') st'' := by
      refine ⟨?_, ?_⟩
      · rw [hend.value, hsame.value, hagain.value]
      · rw [hend.converged, hsame.converged, hagain.converged]
    rcases foldlM_stages (List.Subset.refl hosts) hst'' with ⟨-, hflag''⟩ | hlt
    · exact hflag''.trans hflag
    · have hequal := @stages_congr hosts backwardFlows _ _
        hunchanged.converged fun flow _ => congrFun hunchanged.value flow
      exact absurd hequal hlt.ne'
  · left
    have hsources : stages hosts backwardFlows (sourceSearches hosts forwardFlows st) =
        stages hosts backwardFlows { st with flag := false } :=
      foldl_sourceSearch_stages hosts _
    rw [hsources] at hlt
    exact hlt

theorem destinationSearch_returns (fuel : Nat)
    (hends : 1 < total st.value (incoming backwardFlows host) →
      Ends st.value (incoming backwardFlows host)) :
    ∃ fuel' st', fuel ≤ fuel' ∧ destinationSearch backwardFlows fuel' st host = some st' := by
  rcases le_or_gt (total st.value (incoming backwardFlows host)) 1 with hwithin | hover
  · refine ⟨fuel, st.readAll (incoming backwardFlows host), le_refl fuel, ?_⟩
    rw [destinationSearch_eq, if_pos hwithin]
  · obtain ⟨fuel', result, hloop⟩ := hends hover
    have hsome : (destinationSearch backwardFlows (max fuel fuel') st host).isSome = true := by
      rw [destinationSearch_eq, if_neg (not_le.mpr hover),
        receiverLoop_mono (le_max_right fuel fuel') hloop]
      rfl
    obtain ⟨st', hsearch⟩ := Option.isSome_iff_exists.mp hsome
    exact ⟨max fuel fuel', st', le_max_left fuel fuel', hsearch⟩

theorem iteration_returns
    (hends : ∀ fuel st host, Oversubscribed hosts forwardFlows backwardFlows fuel st host →
      Ends st.value (incoming backwardFlows host))
    (hbegins : Begins hosts forwardFlows backwardFlows fuel st) :
    ∃ fuel' st', fuel ≤ fuel' ∧ iteration hosts forwardFlows backwardFlows fuel' st = some st' := by
  have hprefix : ∀ before after, hosts = before ++ after → ∃ fuel' st', fuel ≤ fuel' ∧
      before.foldlM (destinationSearch backwardFlows fuel')
        (sourceSearches hosts forwardFlows st) = some st' := by
    intro before
    induction before using List.reverseRecOn with
    | nil => exact fun _ _ => ⟨fuel, _, le_refl fuel, rfl⟩
    | append_singleton before host ih =>
      intro after hsplit
      rw [append_assoc] at hsplit
      obtain ⟨fuel', middle, hle, hbefore⟩ := ih _ hsplit
      obtain ⟨fuel'', st', hle', hsearch⟩ := destinationSearch_returns fuel' fun hover =>
        hends fuel' middle host ⟨⟨st, before, after, hbegins.mono hle, hsplit, hbefore⟩, hover⟩
      refine ⟨fuel'', st', hle.trans hle', ?_⟩
      rw [foldlM_append, foldlM_mono hle' hbefore]
      simp only [bind_eq_bind, bind_some, foldlM_cons, foldlM_nil, hsearch]
      rfl
  exact hprefix hosts [] (append_nil hosts).symm

theorem estimationLoop_returns
    (hends : ∀ fuel st host, Oversubscribed hosts forwardFlows backwardFlows fuel st host →
      Ends st.value (incoming backwardFlows host))
    (left : Nat) (hbegins : Begins hosts forwardFlows backwardFlows fuel st)
    (hleft : (hosts.flatMap (incoming backwardFlows)).length * 3 ≤
      stages hosts backwardFlows st + left) :
    ∃ fuel' rounds final,
      estimationLoop hosts forwardFlows backwardFlows fuel' rounds st = some final := by
  -- by induction on how far the flows can still move on
  induction left generalizing fuel st with
  | zero =>
    obtain ⟨fuel', st', hle, hiter⟩ := iteration_returns hends hbegins
    rcases iteration_stages hiter with hlt | ⟨st'', hiter', hflag⟩
    · have hbound := stages_le hosts backwardFlows st'
      omega
    · refine ⟨fuel', 2, ?_⟩
      unfold estimationLoop
      rw [hiter]
      simp only [bind_eq_bind, bind_some]
      split
      · refine ⟨st'', ?_⟩
        unfold estimationLoop
        rw [hiter', bind_eq_bind, bind_some, hflag]
        rfl
      · exact ⟨st', rfl⟩
  | succ left ih =>
    obtain ⟨fuel', st', hle, hiter⟩ := iteration_returns hends hbegins
    cases hflag : st'.flag with
    | false =>
      refine ⟨fuel', 1, st', ?_⟩
      unfold estimationLoop
      rw [hiter, bind_eq_bind, bind_some, hflag]
      rfl
    | true =>
      rcases iteration_stages hiter with hlt | ⟨st'', hiter', hflag'⟩
      · obtain ⟨fuel'', rounds, final, hloop⟩ :=
          ih ((hbegins.mono hle).next hiter hflag) (by omega)
        refine ⟨max fuel' fuel'', rounds + 1, final, ?_⟩
        unfold estimationLoop
        rw [iteration_mono (le_max_left fuel' fuel'') hiter, bind_eq_bind,
          bind_some, hflag, if_pos rfl]
        exact estimationLoop_mono (le_max_right fuel' fuel'') (le_refl rounds) hloop
      · refine ⟨fuel', 2, st'', ?_⟩
        unfold estimationLoop
        rw [hiter, bind_eq_bind, bind_some, hflag, if_pos rfl]
        unfold estimationLoop
        rw [hiter', bind_eq_bind, bind_some, hflag']
        rfl

/-- `estimateFlow` returns exactly if the loops at the receivers it comes to end. -/
theorem estimateFlow_returns_iff : (∃ fuel flowEstimations,
      estimateFlow hosts forwardFlows backwardFlows fuel = some flowEstimations) ↔
    ∀ fuel st host, Oversubscribed hosts forwardFlows backwardFlows fuel st host →
      Ends st.value (incoming backwardFlows host) := by
  constructor
  · rintro ⟨fuel, flowEstimations, h⟩ fuel' st host hover
    have hrecvs := hover.receives.mono (le_max_right fuel fuel')
    obtain ⟨st', hsearch⟩ := hrecvs.returns (estimateFlow_mono (le_max_left fuel fuel') h)
    obtain ⟨result, hloop, -⟩ := destinationSearch_over hover.exceeds hsearch
    exact ⟨_, result, hloop⟩
  · intro hends
    obtain ⟨fuel, rounds, final, hloop⟩ := @estimationLoop_returns _ _ _ 0 _ hends
      ((hosts.flatMap (incoming backwardFlows)).length * 3) .first (Nat.le_add_left _ _)
    refine ⟨max fuel rounds, final.flowEstimations, ?_⟩
    unfold estimateFlow
    rw [estimationLoop_mono (le_max_left fuel rounds) (le_max_right fuel rounds) hloop]
    rfl

/-- `estimateFlow` returns if every oversubscribed receiver that comes to its turn gets something of
each of its flows. -/
theorem estimateFlow_returns
    (hpositive : ∀ fuel st host, Oversubscribed hosts forwardFlows backwardFlows fuel st host →
      ∀ p ∈ incoming backwardFlows host, 0 < st.value p.1) :
    ∃ fuel flowEstimations,
      estimateFlow hosts forwardFlows backwardFlows fuel = some flowEstimations :=
  estimateFlow_returns_iff.mpr fun fuel st host hover => ends_of_pos (hpositive fuel st host hover)

end

theorem estimateFlow_returns_pair : ∃ fuel flowEstimations,
    estimateFlow [0, 1, 2] (forwardFlows pairFlows) (backwardFlows pairFlows) fuel =
      some flowEstimations := by
  refine estimateFlow_returns fun fuel st host hover => ?_
  obtain ⟨rfl, rfl⟩ := pairFlows_turn hover
  decide +kernel

/-! ## 5. A flow without demand -/

def stallingFlows : List Flow :=
  [(0, 1), (2, 1), (2, 1), (2, 0), (2, 0)] ++ List.replicate 7 (1, 0) ++ List.replicate 6 (1, 2)

/-- When host 1 comes to its turn the second time, the demand of one of its flows is zero. -/
theorem stallingFlows_turn : ∃ st st',
    iteration [0, 1, 2] (forwardFlows stallingFlows) (backwardFlows stallingFlows) 10 {} = some st ∧
    st.flag = true ∧
    [0].foldlM (destinationSearch (backwardFlows stallingFlows) 10)
      (sourceSearches [0, 1, 2] (forwardFlows stallingFlows) st) = some st' ∧
    st'.value (0, 1) = 0 ∧ st'.value (2, 1) = 119 / 234 := by
  have hturn : ((iteration [0, 1, 2] (forwardFlows stallingFlows) (backwardFlows stallingFlows) 10
      {}).bind fun st => ([0].foldlM (destinationSearch (backwardFlows stallingFlows) 10)
        (sourceSearches [0, 1, 2] (forwardFlows stallingFlows) st)).map fun st' =>
          (st.flag, st'.value (0, 1), st'.value (2, 1))) = some (true, 0, 119 / 234) := by
    decide +kernel
  obtain ⟨st, hiter, hturn⟩ := bind_eq_some_iff.mp hturn
  obtain ⟨st', hbefore, hvals⟩ := map_eq_some_iff.mp hturn
  obtain ⟨hflag, hvals⟩ := Prod.mk.inj hvals
  exact ⟨st, st', hiter, hflag, hbefore, Prod.mk.inj hvals⟩

/-- `estimateFlow` does not return. -/
theorem estimateFlow_never_returns : ¬∃ fuel flowEstimations,
    estimateFlow [0, 1, 2] (forwardFlows stallingFlows) (backwardFlows stallingFlows) fuel =
      some flowEstimations := by
  obtain ⟨st, st', hiteration, hflag, hbefore, hzero, hhalf⟩ := stallingFlows_turn
  have hincoming : incoming (backwardFlows stallingFlows) 1 = [((2, 1), 2), ((0, 1), 1)] := by
    decide +kernel
  have hreceives : Receives [0, 1, 2] (forwardFlows stallingFlows) (backwardFlows stallingFlows) 10
      st' 1 := ⟨st, [0], [2], .next .first hiteration hflag, rfl, hbefore⟩
  have hover : 1 < total st'.value (incoming (backwardFlows stallingFlows) 1) := by
    rw [hincoming]
    simp only [total_cons, total_nil, hzero, hhalf]
    norm_num
  have hnumber : number (incoming (backwardFlows stallingFlows) 1) = 3 := by
    rw [hincoming]
    rfl
  -- the flow without demand is below 1/3 and 1/2, and the two others are not
  have hfilter : ∀ estimation : ℚ, estimation = 1 / 3 ∨ estimation = 1 / 2 →
      ([((2, 1), 2), ((0, 1), 1)] : CountedFlows).filter (fun p => st'.value p.1 < estimation) =
        [((0, 1), 1)] ∧
      ([((2, 1), 2), ((0, 1), 1)] : CountedFlows).filter
        (fun p => !decide (st'.value p.1 < estimation)) = [((2, 1), 2)] ∧
      (([((2, 1), 2), ((0, 1), 1)] : CountedFlows).any fun p => st'.value p.1 < estimation) =
        true := by
    rintro estimation (rfl | rfl) <;> norm_num [List.filter, hzero, hhalf]
  have htotal : total st'.value [((0, 1), 1)] = 0 := by
    rw [total_cons, total_nil, hzero, zero_mul, add_zero]
  have hothers : (number [((2, 1), 2)] : ℚ) = 2 := rfl
  intro hreturns
  obtain ⟨fuel, result, hloop⟩ := estimateFlow_returns_iff.mp hreturns 10 st' 1 ⟨hreceives, hover⟩
  rw [hnumber, hincoming] at hloop
  cases fuel with
  | zero => cases hloop
  | succ fuel =>
    obtain ⟨hbelow, habove, hany⟩ := hfilter (1 / 3) (.inl rfl)
    unfold receiverLoop at hloop
    simp only [receiverRound_eq, Nat.cast_ofNat, hbelow, habove, hany, htotal, hothers, add_zero,
      sub_zero, if_true] at hloop
    obtain ⟨hbelow, habove, hany⟩ := hfilter (1 / 2) (.inr rfl)
    have hstalls := @receiverLoop_stalls _ _ 0 _ hany (by rw [hbelow, htotal])
      (by rw [habove]; exact two_pos) (by rw [habove, hothers, sub_zero]) fuel
    split at hloop
    · next hnone => exact absurd hnone (by decide)
    · rw [hstalls] at hloop
      cases hloop

end MoeJit.Hedera
