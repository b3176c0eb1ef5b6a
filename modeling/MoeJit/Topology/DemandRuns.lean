import MoeJit.Topology.DemandEstimation

/-!
# Runs of the demand estimation

What holds whenever a receiver comes to its turn in `estimateFlow`, and when it returns.

`demands_right_iff`: every oversubscribed receiver divides rightly, and the demands are feasible in
the end, exactly if no flow is ever below the equal share of an oversubscribed receiver.
`demands_wrong`: two flows to a receiver, one of them from a host with four flows, suffice.
-/

namespace MoeJit.Hedera

open List
open Estimation (converged_assignAll mem_assignAll mem_readAll)
open Option (bind_eq_bind bind_eq_some_iff bind_some map_eq_some_iff)

section

variable (hosts : List Nat) (forwardFlows backwardFlows : FlowCountMap) (fuel : Nat)

/-! ## 1. Statement -/

/-- The estimations at which an iteration begins. -/
inductive Begins : Estimation → Prop
  | first : Begins {}
  | next {st st' : Estimation} (h : Begins st)
      (hiteration : iteration hosts forwardFlows backwardFlows fuel st = some st')
      (hflag : st'.flag = true) : Begins st'

/-- The estimations with which a receiver comes to its turn. -/
def Receives (st : Estimation) (host : Nat) : Prop :=
  ∃ start before after, Begins hosts forwardFlows backwardFlows fuel start ∧
    hosts = before ++ host :: after ∧
    before.foldlM (destinationSearch backwardFlows fuel) (sourceSearches hosts forwardFlows start) =
      some st

/-- A receiver that gets more than it can take comes to its turn. -/
structure Oversubscribed (st : Estimation) (host : Nat) : Prop where
  receives : Receives hosts forwardFlows backwardFlows fuel st host
  exceeds : 1 < total st.value (incoming backwardFlows host)

/-- What `flowEstimations.at` reads in a result. -/
def demand (flowEstimations : FlowEstimations ℚ) (flow : Flow) : ℚ :=
  (flowEstimations.lookup flow).getD 0

/-- The demands that `estimateFlow` should return. -/
structure Feasible (flowEstimations : FlowEstimations ℚ) : Prop where
  nonneg : ∀ flow, 0 ≤ demand flowEstimations flow
  outgoing : ∀ host ∈ hosts,
    total (demand flowEstimations) (outgoing forwardFlows host) ≤ 1 + threshold
  incoming : ∀ host ∈ hosts,
    total (demand flowEstimations) (incoming backwardFlows host) ≤ 1 + threshold

/-- All oversubscribed receivers divide rightly. -/
def DividesRightly : Prop :=
  ∀ st st' host, Oversubscribed hosts forwardFlows backwardFlows fuel st host →
    destinationSearch backwardFlows fuel st host = some st' →
    Levelled st.value st'.value (Hedera.incoming backwardFlows host)

end

/-! ## 2. Fuel -/

section

variable {hosts : List Nat} {forwardFlows backwardFlows : FlowCountMap} {fuel fuel' : Nat}

theorem receiverLoop_mono {value : Flow → ℚ} {flows : CountedFlows} {demand estimation : ℚ} {exceeded : Flow → Bool}
    {result : ℚ × (Flow → Bool)} (hle : fuel ≤ fuel')
    (h : receiverLoop value flows fuel demand estimation exceeded = some result) :
    receiverLoop value flows fuel' demand estimation exceeded = some result := by
  induction fuel generalizing fuel' demand estimation exceeded with
  | zero => cases h
  | succ fuel ih =>
    cases fuel' with
    | zero => exact absurd hle (Nat.not_succ_le_zero fuel)
    | succ fuel' =>
      unfold receiverLoop at h ⊢
      dsimp only at h ⊢
      split at h
      · next hnone => rw [if_pos hnone, h]
      · next hsome =>
        rw [if_neg hsome]
        split at h
        · next hunconverged => rw [if_pos hunconverged, ih (Nat.le_of_succ_le_succ hle) h]
        · next hconv => rw [if_neg hconv, h]

variable {st st' : Estimation}

section

variable (hle : fuel ≤ fuel')
include hle

theorem destinationSearch_mono {host : Nat}
    (h : destinationSearch backwardFlows fuel st host = some st') :
    destinationSearch backwardFlows fuel' st host = some st' := by
  rw [destinationSearch_eq] at h ⊢
  split at h
  · next hwithin => rw [if_pos hwithin, h]
  · next hover =>
    rw [if_neg hover]
    obtain ⟨result, hloop, hst'⟩ := map_eq_some_iff.mp h
    exact map_eq_some_iff.mpr ⟨result, receiverLoop_mono hle hloop, hst'⟩

theorem foldlM_mono (h : hosts.foldlM (destinationSearch backwardFlows fuel) st = some st') :
    hosts.foldlM (destinationSearch backwardFlows fuel') st = some st' := by
  induction hosts generalizing st with
  | nil => exact h
  | cons host hosts ih =>
    rw [foldlM_cons, bind_eq_bind, bind_eq_some_iff] at h ⊢
    obtain ⟨middle, hsearch, hrest⟩ := h
    exact ⟨middle, destinationSearch_mono hle hsearch, ih hrest⟩

theorem iteration_mono (h : iteration hosts forwardFlows backwardFlows fuel st = some st') :
    iteration hosts forwardFlows backwardFlows fuel' st = some st' :=
  foldlM_mono hle h

theorem Begins.mono (h : Begins hosts forwardFlows backwardFlows fuel st) :
    Begins hosts forwardFlows backwardFlows fuel' st := by
  induction h with
  | first => exact .first
  | next _ hiter hflag ih => exact ih.next (iteration_mono hle hiter) hflag

theorem Receives.mono {host : Nat} (h : Receives hosts forwardFlows backwardFlows fuel st host) :
    Receives hosts forwardFlows backwardFlows fuel' st host := by
  obtain ⟨start, before, after, hbegins, hsplit, hbefore⟩ := h
  exact ⟨start, before, after, hbegins.mono hle, hsplit, foldlM_mono hle hbefore⟩

theorem estimationLoop_mono {rounds rounds' : Nat} (hrounds : rounds ≤ rounds')
    (h : estimationLoop hosts forwardFlows backwardFlows fuel rounds st = some st') :
    estimationLoop hosts forwardFlows backwardFlows fuel' rounds' st = some st' := by
  induction rounds generalizing rounds' st with
  | zero => cases h
  | succ rounds ih =>
    cases rounds' with
    | zero => exact absurd hrounds (Nat.not_succ_le_zero rounds)
    | succ rounds' =>
      unfold estimationLoop at h ⊢
      rw [bind_eq_bind, bind_eq_some_iff] at h ⊢
      obtain ⟨middle, hiter, hrest⟩ := h
      refine ⟨middle, iteration_mono hle hiter, ?_⟩
      split at hrest
      · next hflag => rw [if_pos hflag, ih (Nat.le_of_succ_le_succ hrounds) hrest]
      · next hflag => rw [if_neg hflag, hrest]

theorem estimateFlow_mono {flowEstimations : FlowEstimations ℚ}
    (h : estimateFlow hosts forwardFlows backwardFlows fuel = some flowEstimations) :
    estimateFlow hosts forwardFlows backwardFlows fuel' = some flowEstimations := by
  unfold estimateFlow at h ⊢
  obtain ⟨final, hloop, hresult⟩ := map_eq_some_iff.mp h
  exact map_eq_some_iff.mpr ⟨final, estimationLoop_mono hle hle hloop, hresult⟩

end

end

/-! ## 3. The invariant -/

/-- What a source would send if all its flows that have not converged were at a level. -/
def upper (st : Estimation) (level : ℚ) (flow : Flow) : ℚ :=
  if st.converged flow then st.value flow else level

/-- A source does not send too much, even if all its flows that have not converged were at some
level that they have not passed. -/
def Room (forwardFlows : FlowCountMap) (st : Estimation) (host : Nat) : Prop :=
  ∃ level, (∀ p ∈ outgoing forwardFlows host, st.value p.1 ≤ upper st level p.1) ∧
    total (upper st level) (outgoing forwardFlows host) ≤ 1

structure Fair (forwardFlows : FlowCountMap) (st : Estimation) : Prop where
  nonneg : ∀ flow, 0 ≤ st.value flow
  room : ∀ host, Room forwardFlows st host

theorem Room.total_value_le {forwardFlows : FlowCountMap} {st : Estimation} {host : Nat}
    (h : Room forwardFlows st host) : total st.value (outgoing forwardFlows host) ≤ 1 := by
  obtain ⟨level, hle, htotal⟩ := h
  exact (total_le hle).trans htotal

theorem fair_first (forwardFlows : FlowCountMap) : Fair forwardFlows {} where
  nonneg _ := le_refl _
  room host := by
    refine ⟨0, fun p _ => le_refl _, ?_⟩
    have hzero : total (upper {} 0) (outgoing forwardFlows host) = 0 := by
      rw [@total_congr _ (fun _ => 0) _ fun p _ => rfl, total_const, zero_mul]
    rw [hzero]
    exact zero_le_one

theorem total_upper (st : Estimation) (level : ℚ) (flows : CountedFlows) :
    total (upper st level) flows = total st.value (flows.filter fun p => st.converged p.1) +
      level * number (flows.filter fun p => !st.converged p.1) := by
  rw [← total_filter_add fun flow => st.converged flow, ← total_const level]
  congr 1
  · refine total_congr fun p hp => ?_
    unfold upper
    rw [if_pos (mem_filter.mp hp).2]
  · refine total_congr fun p hp => ?_
    unfold upper
    rw [if_neg (by simpa using (mem_filter.mp hp).2)]

theorem mem_outgoing {forwardFlows : FlowCountMap} {host : Nat} {p : Flow × ℕ+}
    (h : p ∈ outgoing forwardFlows host) : p.1.1 = host := by
  obtain ⟨entry, -, rfl⟩ := mem_map.mp h
  rfl

theorem mem_incoming {backwardFlows : FlowCountMap} {host : Nat} {p : Flow × ℕ+}
    (h : p ∈ incoming backwardFlows host) : p.1.2 = host := by
  obtain ⟨entry, -, rfl⟩ := mem_map.mp h
  rfl

section

variable {forwardFlows backwardFlows : FlowCountMap} {fuel : Nat} {st st' : Estimation}
  {host : Nat}

/-- A source search raises the flows that have not converged, by what there is room for. -/
theorem Fair.sourceSearch (h : Fair forwardFlows st) (host : Nat) :
    Fair forwardFlows (sourceSearch forwardFlows st host) := by
  rw [sourceSearch_eq]
  set flows := outgoing forwardFlows host with hflows
  set after := st.assignAll (fun flow => !st.converged flow) (share st flows) flows with hafter
  have hconv : after.converged = st.converged := converged_assignAll
  have hval : ∀ flow, after.value flow =
      if (!st.converged flow) = true ∧ ∃ p ∈ flows, p.1 = flow then
        settled (share st flows) (st.value flow)
      else st.value flow := Estimation.value_assignAll
  obtain ⟨level, hle, htotal⟩ := h.room host
  rw [total_upper] at htotal
  -- the share is at least the level at which there is room
  have hshare : ∀ p ∈ flows, st.converged p.1 = false → level ≤ share st flows := by
    intro p hp hfalse
    have hpos : (0 : ℚ) < number (flows.filter fun p => !st.converged p.1) :=
      Nat.cast_pos.mpr (number_pos (mem_filter.mpr ⟨hp, by rw [hfalse]; rfl⟩))
    unfold share
    rw [le_div_iff₀ hpos]
    linarith
  have hbelow : ∀ p ∈ flows, st.converged p.1 = false → st.value p.1 ≤ level := by
    intro p hp hfalse
    have hp' := hle p hp
    unfold upper at hp'
    rwa [hfalse, if_neg Bool.false_ne_true] at hp'
  refine ⟨fun flow => ?_, fun other => ?_⟩
  · rw [hval]
    split
    · next hflow =>
      obtain ⟨hfalse, p, hp, rfl⟩ := hflow
      rw [Bool.not_eq_true'] at hfalse
      unfold settled
      split
      · exact (h.nonneg p.1).trans ((hbelow p hp hfalse).trans (hshare p hp hfalse))
      · exact h.nonneg p.1
    · exact h.nonneg flow
  · cases decEq other host with
    | isTrue heq =>
      subst heq
      refine ⟨share st flows, fun p hp => ?_, ?_⟩
      · unfold upper
        rw [hconv, hval]
        cases hp' : st.converged p.1 with
        | true => simp only [if_true, Bool.not_true, Bool.false_eq_true, false_and, if_false,
            le_refl]
        | false =>
          rw [if_pos ⟨rfl, p, hp, rfl⟩, if_neg Bool.false_ne_true]
          unfold settled
          split
          · exact le_refl _
          · exact (hbelow p hp hp').trans (hshare p hp hp')
      · have hsame : total (upper after (share st flows)) flows =
            total (upper st (share st flows)) flows := by
          refine total_congr fun p hp => ?_
          unfold upper
          rw [hconv]
          split
          · next htrue =>
            rw [hval, htrue]
            simp only [Bool.not_true, Bool.false_eq_true, false_and, if_false]
          · rfl
        rw [hsame, total_upper]
        cases Nat.eq_zero_or_pos (number (flows.filter fun p => !st.converged p.1)) with
        | inl hnone =>
          rw [hnone, Nat.cast_zero, mul_zero, add_zero] at htotal ⊢
          exact htotal
        | inr hpos =>
          have hdiv : share st flows * number (flows.filter fun p => !st.converged p.1) =
              1 - total st.value (flows.filter fun p => st.converged p.1) :=
            div_mul_cancel₀ _ (Nat.cast_pos.mpr hpos).ne'
          rw [hdiv]
          linarith
    | isFalse hne =>
      -- the flows of other sources stay what they are
      have hkept : ∀ p ∈ outgoing forwardFlows other, after.value p.1 = st.value p.1 := by
        intro p hp
        rw [hval, if_neg]
        rintro ⟨-, q, hq, heq⟩
        exact hne (by rw [← mem_outgoing hp, ← heq, mem_outgoing hq])
      have hupper : ∀ p ∈ outgoing forwardFlows other, ∀ level,
          upper after level p.1 = upper st level p.1 := by
        intro p hp level
        unfold upper
        rw [hconv, hkept p hp]
      obtain ⟨level, hle, htotal⟩ := h.room other
      refine ⟨level, fun p hp => ?_, ?_⟩
      · rw [hkept p hp, hupper p hp]
        exact hle p hp
      · rw [total_congr fun p hp => hupper p hp level]
        exact htotal

/-- Values that only sink, and stay unless they have converged, leave the room there was. -/
theorem Fair.of_le (h : Fair forwardFlows st) (hnonneg : ∀ flow, 0 ≤ st'.value flow)
    (hle : ∀ flow, st'.value flow ≤ st.value flow)
    (hconv : ∀ flow, st.converged flow = true → st'.converged flow = true) :
    Fair forwardFlows st' := by
  refine ⟨hnonneg, fun host => ?_⟩
  obtain ⟨level, hlevel, htotal⟩ := h.room host
  have hupper : ∀ p ∈ outgoing forwardFlows host, upper st' level p.1 ≤ upper st level p.1 := by
    intro p hp
    have hp' := hlevel p hp
    unfold upper at hp' ⊢
    cases hbefore : st.converged p.1 with
    | true =>
      rw [hconv p.1 hbefore]
      exact hle p.1
    | false =>
      rw [hbefore] at hp'
      cases st'.converged p.1 with
      | true => exact (hle p.1).trans hp'
      | false => exact le_refl _
  refine ⟨level, fun p hp => ?_, (total_le hupper).trans htotal⟩
  have hp' := hlevel p hp
  unfold upper at hp' ⊢
  cases hafter : st'.converged p.1 with
  | true => exact le_refl _
  | false =>
    have hbefore : st.converged p.1 = false := by
      cases hbefore : st.converged p.1 with
      | true => exact absurd (hconv p.1 hbefore) (by rw [hafter]; exact Bool.false_ne_true)
      | false => rfl
    rw [hbefore] at hp'
    exact (hle p.1).trans hp'

theorem Fair.destinationSearch (hfair : Fair forwardFlows st)
    (heven : 1 < total st.value (incoming backwardFlows host) →
      Even st.value (incoming backwardFlows host))
    (h : destinationSearch backwardFlows fuel st host = some st') : Fair forwardFlows st' := by
  rcases le_or_gt (total st.value (incoming backwardFlows host)) 1 with hwithin | hover
  · obtain ⟨hval, hconv, -⟩ := destinationSearch_within hwithin h
    refine hfair.of_le (fun flow => ?_) (fun flow => ?_) fun flow htrue => ?_
    · rw [hval]
      exact hfair.nonneg flow
    · rw [hval]
    · rw [hconv]
      exact htrue
  · have hshare : ∀ p ∈ incoming backwardFlows host,
        1 / (number (incoming backwardFlows host) : ℚ) ≤ st.value p.1 :=
      fun p hp => (heven hover).share_le hp
    have hval := destinationSearch_even hover hshare h
    refine hfair.of_le (fun flow => ?_) (fun flow => ?_) fun flow htrue => ?_
    · rw [hval]
      split
      · next hflow =>
        obtain ⟨p, hp, rfl⟩ := hflow
        exact (div_nonneg zero_le_one (Nat.cast_nonneg _)).trans (le_settled (hshare p hp))
      · exact hfair.nonneg flow
    · rw [hval]
      split
      · next hflow =>
        obtain ⟨p, hp, rfl⟩ := hflow
        exact settled_le (hshare p hp)
      · exact le_refl _
    · obtain ⟨result, -, -, hconv, -⟩ := destinationSearch_over hover h
      rw [hconv, htrue, Bool.true_or]

end

/-! ## 4. Runs -/

variable {flowEstimations : FlowEstimations ℚ} {flows : List Flow}

section

variable {hosts : List Nat} {forwardFlows backwardFlows : FlowCountMap} {fuel : Nat}

/-- No flow is below the equal share of an oversubscribed receiver. -/
def NoneSmall (hosts : List Nat) (forwardFlows backwardFlows : FlowCountMap) (fuel : Nat) : Prop :=
  ∀ st host, Oversubscribed hosts forwardFlows backwardFlows fuel st host →
    Even st.value (incoming backwardFlows host)

variable {st st' : Estimation} {host : Nat}

theorem Fair.sourceSearches (h : Fair forwardFlows st) :
    Fair forwardFlows (sourceSearches hosts forwardFlows st) := by
  unfold Hedera.sourceSearches
  have hstart : Fair forwardFlows { st with flag := false } := ⟨h.nonneg, h.room⟩
  generalize ({ st with flag := false } : Estimation) = start at hstart
  induction hosts generalizing start with
  | nil => exact hstart
  | cons host hosts ih => exact ih _ (hstart.sourceSearch host)

/-- What the searches of the receivers keep, they keep up to each of them. -/
theorem foldlM_induction {P : Estimation → Prop} {start : Estimation} (hstart : P start)
    (hosts : List Nat)
    (hstep : ∀ before host after st st', hosts = before ++ host :: after →
      before.foldlM (destinationSearch backwardFlows fuel) start = some st → P st →
      destinationSearch backwardFlows fuel st host = some st' → P st')
    (h : hosts.foldlM (destinationSearch backwardFlows fuel) start = some st) : P st := by
  induction hosts using List.reverseRecOn generalizing st with
  | nil =>
    cases h
    exact hstart
  | append_singleton hosts host ih =>
    rw [foldlM_append, bind_eq_bind, bind_eq_some_iff] at h
    obtain ⟨middle, hbefore, hlast⟩ := h
    rw [foldlM_cons, bind_eq_bind, bind_eq_some_iff] at hlast
    obtain ⟨_, hlast, hdone⟩ := hlast
    cases hdone
    refine hstep hosts host [] middle st rfl hbefore (ih (fun before other after => ?_) hbefore) hlast
    intro st st' hsplit
    exact hstep before other (after ++ [host]) st st' (by rw [hsplit]; simp)

theorem Fair.iteration (h : Fair forwardFlows st)
    (hnone : NoneSmall hosts forwardFlows backwardFlows fuel)
    (hbegins : Begins hosts forwardFlows backwardFlows fuel st)
    (hiter : iteration hosts forwardFlows backwardFlows fuel st = some st') :
    Fair forwardFlows st' := by
  refine foldlM_induction h.sourceSearches hosts ?_ hiter
  intro before host after middle middle' hsplit hbefore hmiddle hsearch
  refine hmiddle.destinationSearch (fun hover => ?_) hsearch
  exact hnone middle host ⟨⟨st, before, after, hbegins, hsplit, hbefore⟩, hover⟩

theorem Begins.fair (h : Begins hosts forwardFlows backwardFlows fuel st)
    (hnone : NoneSmall hosts forwardFlows backwardFlows fuel) : Fair forwardFlows st := by
  induction h with
  | first => exact fair_first forwardFlows
  | next hbegins hiter _ ih => exact ih.iteration hnone hbegins hiter

/-- `estimateFlow` returns after an iteration in which nothing changed. -/
theorem estimateFlow_last
    (h : estimateFlow hosts forwardFlows backwardFlows fuel = some flowEstimations) :
    ∃ start final, Begins hosts forwardFlows backwardFlows fuel start ∧
      iteration hosts forwardFlows backwardFlows fuel start = some final ∧ final.flag = false ∧
      final.flowEstimations = flowEstimations := by
  have hloop : ∀ (rounds : Nat) (st final : Estimation),
      Begins hosts forwardFlows backwardFlows fuel st →
      estimationLoop hosts forwardFlows backwardFlows fuel rounds st = some final →
      ∃ start, Begins hosts forwardFlows backwardFlows fuel start ∧
        iteration hosts forwardFlows backwardFlows fuel start = some final ∧ final.flag = false := by
    intro rounds
    induction rounds with
    | zero => exact fun _ _ _ h => (nomatch h)
    | succ rounds ih =>
      intro st final hbegins h
      unfold estimationLoop at h
      rw [bind_eq_bind, bind_eq_some_iff] at h
      obtain ⟨st', hiter, h⟩ := h
      cases hflag : st'.flag with
      | true =>
        rw [hflag, if_pos rfl] at h
        exact ih st' final (hbegins.next hiter hflag) h
      | false =>
        rw [hflag, if_neg Bool.false_ne_true] at h
        cases h
        exact ⟨st, hbegins, hiter, hflag⟩
  unfold estimateFlow at h
  rw [map_eq_some_iff] at h
  obtain ⟨final, hfinal, hresult⟩ := h
  obtain ⟨start, hbegins, hiter, hflag⟩ := hloop fuel {} final .first hfinal
  exact ⟨start, final, hbegins, hiter, hflag, hresult⟩

/-- If `estimateFlow` returns, the search of every receiver that comes to its turn does. -/
theorem Receives.returns (hrecvs : Receives hosts forwardFlows backwardFlows fuel st host)
    (h : estimateFlow hosts forwardFlows backwardFlows fuel = some flowEstimations) :
    ∃ st', destinationSearch backwardFlows fuel st host = some st' := by
  have hbegun : ∀ start, Begins hosts forwardFlows backwardFlows fuel start → ∃ rounds final,
        estimationLoop hosts forwardFlows backwardFlows fuel rounds start = some final := by
    intro start hbegins
    induction hbegins with
    | first =>
      unfold estimateFlow at h
      rw [map_eq_some_iff] at h
      obtain ⟨final, hfinal, -⟩ := h
      exact ⟨fuel, final, hfinal⟩
    | next _ hiter hflag ih =>
      obtain ⟨rounds, final, hloop⟩ := ih
      cases rounds with
      | zero => cases hloop
      | succ rounds =>
        unfold estimationLoop at hloop
        rw [hiter, bind_eq_bind, bind_some, hflag, if_pos rfl] at hloop
        exact ⟨rounds, final, hloop⟩
  obtain ⟨start, before, after, hbegins, hsplit, hbefore⟩ := hrecvs
  obtain ⟨rounds, final, hloop⟩ := hbegun start hbegins
  cases rounds with
  | zero => cases hloop
  | succ rounds =>
    unfold estimationLoop iteration at hloop
    rw [hsplit, foldlM_append, ← hsplit, hbefore] at hloop
    simp only [bind_eq_bind, bind_some, foldlM_cons, Option.bind_assoc, bind_eq_some_iff] at hloop
    obtain ⟨st', hsearch, -⟩ := hloop
    exact ⟨st', hsearch⟩

theorem destinationSearch_unchanged (h : destinationSearch backwardFlows fuel st host = some st')
    (hflag : st'.flag = false) : st.flag = false ∧ st'.value = st.value := by
  rcases le_or_gt (total st.value (incoming backwardFlows host)) 1 with hwithin | hover
  · obtain ⟨hval, -, hsame⟩ := destinationSearch_within hwithin h
    exact ⟨hsame.symm.trans hflag, hval⟩
  · obtain ⟨result, -, hval, -, hraised⟩ := destinationSearch_over hover h
    rw [hflag] at hraised
    obtain ⟨hbefore, hnone⟩ := Bool.or_eq_false_iff.mp hraised.symm
    refine ⟨hbefore, funext fun flow => ?_⟩
    rw [hval]
    split
    · next hflow =>
      obtain ⟨hexceeded, p, hp, rfl⟩ := hflow
      have hnot := any_eq_false.mp hnone p hp
      rw [hexceeded, Bool.true_and, decide_eq_true_eq, not_lt] at hnot
      exact settled_of_le hnot
    · rfl

/-- After the last iteration every receiver finds the demands that are returned. -/
theorem receives_last {start final : Estimation} (hhost : host ∈ hosts)
    (hbegins : Begins hosts forwardFlows backwardFlows fuel start)
    (hiter : iteration hosts forwardFlows backwardFlows fuel start = some final)
    (hflag : final.flag = false) :
    ∃ st st', Receives hosts forwardFlows backwardFlows fuel st host ∧
      destinationSearch backwardFlows fuel st host = some st' ∧
      st.value = final.value ∧ st'.value = final.value := by
  have hunchanged : ∀ (hosts : List Nat) (st final : Estimation),
      hosts.foldlM (destinationSearch backwardFlows fuel) st = some final → final.flag = false →
      st.flag = false ∧ final.value = st.value := by
    intro hosts
    induction hosts with
    | nil =>
      intro st final h hflag
      cases h
      exact ⟨hflag, rfl⟩
    | cons host hosts ih =>
      intro st final h hflag
      rw [foldlM_cons, bind_eq_bind, bind_eq_some_iff] at h
      obtain ⟨st', hsearch, hrest⟩ := h
      obtain ⟨hflag', hval'⟩ := ih st' final hrest hflag
      obtain ⟨hflag'', hvalue''⟩ := destinationSearch_unchanged hsearch hflag'
      exact ⟨hflag'', hval'.trans hvalue''⟩
  obtain ⟨before, after, rfl⟩ := append_of_mem hhost
  have hfold := hiter
  unfold iteration at hfold
  rw [foldlM_append, bind_eq_bind, bind_eq_some_iff] at hfold
  obtain ⟨st, hbefore, hrest⟩ := hfold
  have hfromHere := hunchanged _ st final hrest hflag
  rw [foldlM_cons, bind_eq_bind, bind_eq_some_iff] at hrest
  obtain ⟨st', hsearch, hrest⟩ := hrest
  exact ⟨st, st', ⟨start, before, after, hbegins, rfl, hbefore⟩, hsearch, hfromHere.2.symm,
    (hunchanged _ st' final hrest hflag).2.symm⟩

/-! ## 5. Entries -/

theorem mem_countFlow {counts : FlowCountMap} {other host' other' : Nat} :
    other' ∈ countFlow counts host other host' ↔
      (host' = host ∧ other' = other) ∨ other' ∈ counts host' := by
  unfold countFlow
  cases decEq host' host with
  | isTrue heq =>
    subst heq
    rw [Function.update_self, AList.mem_insert]
    simp only [true_and]
  | isFalse hne =>
    rw [Function.update_of_ne hne]
    simp only [hne, false_and, false_or]

theorem mem_foldl_countFlow (f : Flow → Nat × Nat) (flows : List Flow) (counts : FlowCountMap)
    (host other : Nat) :
    other ∈ (flows.foldl (fun counts flow => countFlow counts (f flow).1 (f flow).2) counts) host ↔
      (∃ flow ∈ flows, f flow = (host, other)) ∨ other ∈ counts host := by
  induction flows generalizing counts with
  | nil => simp
  | cons flow flows ih =>
    rw [foldl_cons, ih, mem_countFlow, exists_mem_cons_iff, Prod.ext_iff, ← or_assoc,
      or_comm (a := ∃ _, _), eq_comm (a := host), eq_comm (a := other)]

theorem mem_entries {α : Type} {m : AList fun _ : Nat => α} {key : Nat} :
    (∃ p ∈ m.entries, p.1 = key) ↔ key ∈ m := by
  rw [AList.mem_keys, AList.keys, List.keys, mem_map]

theorem exists_counted (f : Flow → Nat × Nat) {flows : List Flow} {other : Nat} :
    (∃ p ∈ ((flows.foldl (fun counts flow => countFlow counts (f flow).1 (f flow).2)
      fun _ => ∅) host).entries, p.1 = other) ↔ ∃ flow ∈ flows, f flow = (host, other) := by
  rw [mem_entries, mem_foldl_countFlow]
  exact or_iff_left (AList.notMem_empty _)

theorem exists_outgoing {flow : Flow} :
    (∃ p ∈ outgoing (Hedera.forwardFlows flows) host, p.1 = flow) ↔
      flow ∈ flows ∧ flow.1 = host := by
  unfold outgoing
  simp only [mem_map, exists_exists_and_eq_and]
  constructor
  · rintro ⟨entry, hentry, rfl⟩
    obtain ⟨flow, hflow, heq⟩ := (exists_counted id).mp ⟨entry, hentry, rfl⟩
    exact ⟨heq ▸ hflow, rfl⟩
  · rintro ⟨hflow, rfl⟩
    obtain ⟨entry, hentry, heq⟩ := (exists_counted id).mpr ⟨flow, hflow, rfl⟩
    exact ⟨entry, hentry, Prod.ext rfl heq⟩

theorem exists_incoming {flow : Flow} :
    (∃ p ∈ incoming (Hedera.backwardFlows flows) host, p.1 = flow) ↔
      flow ∈ flows ∧ flow.2 = host := by
  unfold incoming
  simp only [mem_map, exists_exists_and_eq_and]
  constructor
  · rintro ⟨entry, hentry, rfl⟩
    obtain ⟨flow, hflow, heq⟩ := (exists_counted Prod.swap).mp ⟨entry, hentry, rfl⟩
    obtain rfl := Prod.swap_injective (heq.trans (Prod.swap_swap (host, entry.1)).symm)
    exact ⟨hflow, rfl⟩
  · rintro ⟨hflow, rfl⟩
    obtain ⟨entry, hentry, heq⟩ := (exists_counted Prod.swap).mpr ⟨flow, hflow, rfl⟩
    exact ⟨entry, hentry, Prod.ext heq rfl⟩

/-- The entries are flows, and there are those of the flows that have converged. -/
structure Listed (flows : List Flow) (st : Estimation) : Prop where
  flows : ∀ flow ∈ st.flowEstimations, flow ∈ flows
  converged : ∀ flow, st.converged flow = true → flow ∈ st.flowEstimations

theorem Listed.sourceSearch (h : Listed flows st) (host : Nat) :
    Listed flows (sourceSearch (Hedera.forwardFlows flows) st host) := by
  rw [sourceSearch_eq]
  constructor
  · intro flow hmem
    rcases mem_assignAll.mp hmem with ⟨-, hflow⟩ | hmem
    · exact (exists_outgoing.mp hflow).1
    · exact h.flows flow hmem
  · intro flow hconv
    rw [converged_assignAll] at hconv
    exact mem_assignAll.mpr (.inr (h.converged flow hconv))

/-- The sources that have searched have entries for all their flows. -/
theorem Listed.foldl_sourceSearch (sources : List Nat) (h : Listed flows st) :
    Listed flows (sources.foldl (Hedera.sourceSearch (Hedera.forwardFlows flows)) st) ∧
      ∀ flow ∈ flows, flow.1 ∈ sources ∨ flow ∈ st.flowEstimations →
        flow ∈ (sources.foldl (Hedera.sourceSearch (Hedera.forwardFlows flows)) st).flowEstimations
    := by
  induction sources generalizing st with
  | nil => exact ⟨h, fun flow _ hmem => hmem.resolve_left not_mem_nil⟩
  | cons host sources ih =>
    obtain ⟨hlisted, hsources⟩ := ih (h.sourceSearch host)
    refine ⟨hlisted, fun flow hflow hmem => ?_⟩
    rw [foldl_cons]
    refine hsources flow hflow ?_
    rw [sourceSearch_eq, mem_assignAll]
    rcases hmem with hmem | hmem
    · rcases mem_cons.mp hmem with heq | hmem
      · right
        cases hconv : st.converged flow with
        | true => exact .inr (h.converged flow hconv)
        | false => exact .inl ⟨rfl, exists_outgoing.mpr ⟨hflow, heq⟩⟩
      · exact .inl hmem
    · exact .inr (.inr hmem)

theorem Listed.destinationSearch (h : Listed flows st)
    (hsearch : Hedera.destinationSearch (Hedera.backwardFlows flows) fuel st host = some st') :
    Listed flows st' ∧ ∀ flow ∈ st.flowEstimations, flow ∈ st'.flowEstimations := by
  have hread : ∀ flow ∈ (st.readAll (incoming (Hedera.backwardFlows flows) host)).flowEstimations,
      flow ∈ flows := by
    intro flow hmem
    rcases mem_readAll.mp hmem with hflow | hmem
    · exact (exists_incoming.mp hflow).1
    · exact h.flows flow hmem
  rw [destinationSearch_eq] at hsearch
  split at hsearch
  · cases hsearch
    refine ⟨⟨hread, fun flow hconv => ?_⟩, fun flow hmem => ?_⟩
    · rw [(st.readAll_spec _).2.1] at hconv
      exact mem_readAll.mpr (.inr (h.converged flow hconv))
    · exact mem_readAll.mpr (.inr hmem)
  · obtain ⟨result, -, rfl⟩ := map_eq_some_iff.mp hsearch
    refine ⟨⟨fun flow hmem => ?_, fun flow hconv => ?_⟩, fun flow hmem => ?_⟩
    · rcases mem_assignAll.mp hmem with ⟨-, hflow⟩ | hmem
      · exact (exists_incoming.mp hflow).1
      · exact hread flow hmem
    · refine mem_assignAll.mpr (.inr (mem_readAll.mpr ?_))
      rcases Bool.or_eq_true_iff.mp hconv with hbefore | hnow
      · exact .inr (h.converged flow hbefore)
      · obtain ⟨p, hp, heq⟩ := any_eq_true.mp (Bool.and_elim_right hnow)
        exact .inl ⟨p, hp, of_decide_eq_true heq⟩
    · exact mem_assignAll.mpr (.inr (mem_readAll.mpr (.inr hmem)))

/-- An iteration leaves an entry for each flow, if the sources are all hosts. -/
theorem Listed.iteration (h : Listed flows st) (hsources : ∀ flow ∈ flows, flow.1 ∈ hosts)
    (hiter : Hedera.iteration hosts (Hedera.forwardFlows flows) (Hedera.backwardFlows flows)
      fuel st = some st') : Listed flows st' ∧ ∀ flow ∈ flows, flow ∈ st'.flowEstimations := by
  have hstart : Listed flows { st with flag := false } := ⟨h.flows, h.converged⟩
  obtain ⟨hlisted, hall⟩ := hstart.foldl_sourceSearch hosts
  refine foldlM_induction (P := fun st => Listed flows st ∧ ∀ flow ∈ flows, flow ∈ st.flowEstimations)
    ⟨hlisted, fun flow hflow => hall flow hflow (.inl (hsources flow hflow))⟩ hosts ?_ hiter
  intro before host after middle middle' _ _ hmiddle hsearch
  obtain ⟨hlisted', hkept⟩ := hmiddle.1.destinationSearch hsearch
  exact ⟨hlisted', fun flow hflow => hkept flow (hmiddle.2 flow hflow)⟩

theorem estimateFlow_keys (hsources : ∀ flow ∈ flows, flow.1 ∈ hosts)
    (h : estimateFlow hosts (Hedera.forwardFlows flows) (Hedera.backwardFlows flows) fuel =
      some flowEstimations) (flow : Flow) : flow ∈ flowEstimations ↔ flow ∈ flows := by
  obtain ⟨start, final, hbegins, hiter, -, rfl⟩ := estimateFlow_last h
  have hstart : Listed flows start := by
    clear hiter
    induction hbegins with
    | first => exact ⟨fun flow hmem => absurd hmem (AList.notMem_empty flow), fun _ h => (nomatch h)⟩
    | next _ hiter _ ih => exact (ih.iteration hsources hiter).1
  obtain ⟨hlisted, hall⟩ := hstart.iteration hsources hiter
  exact ⟨hlisted.flows flow, hall flow⟩

/-! ## 6. Right demands -/

theorem feasible_of_noneSmall
    (h : estimateFlow hosts forwardFlows backwardFlows fuel = some flowEstimations)
    (hnone : NoneSmall hosts forwardFlows backwardFlows fuel) :
    Feasible hosts forwardFlows backwardFlows flowEstimations := by
  obtain ⟨start, final, hbegins, hiter, hflag, rfl⟩ := estimateFlow_last h
  have hfair := (hbegins.fair hnone).iteration hnone hbegins hiter
  refine ⟨hfair.nonneg, fun host _ => ?_, fun host hhost => ?_⟩
  · exact (hfair.room host).total_value_le.trans (le_add_of_nonneg_right threshold_nonneg)
  · obtain ⟨st, st', hrecvs, hsearch, hst, hst'⟩ := receives_last hhost hbegins hiter hflag
    have hdemand : demand final.flowEstimations = st.value := hst.symm
    rw [hdemand]
    refine le_trans ?_ (le_add_of_nonneg_right threshold_nonneg)
    by_contra hover
    have hover := not_le.mp hover
    have hfull := ((levelled_iff hover hsearch).mpr (hnone st host ⟨hrecvs, hover⟩)).full
    rw [hst', ← hst] at hfull
    exact hover.ne' hfull

/-- When `estimateFlow` returns, the demands are feasible and all oversubscribed receivers have
divided rightly, exactly if no flow was below the equal share of an oversubscribed receiver. -/
theorem demands_right_iff {flowEstimations : FlowEstimations ℚ}
    (h : estimateFlow hosts forwardFlows backwardFlows fuel = some flowEstimations) :
    (Feasible hosts forwardFlows backwardFlows flowEstimations ∧
      DividesRightly hosts forwardFlows backwardFlows fuel) ↔
      NoneSmall hosts forwardFlows backwardFlows fuel := by
  constructor
  · rintro ⟨-, hright⟩ st host hover
    obtain ⟨st', hsearch⟩ := hover.receives.returns h
    exact (levelled_iff hover.exceeds hsearch).mp (hright st st' host hover hsearch)
  · intro hnone
    refine ⟨feasible_of_noneSmall h hnone, fun st st' host hover hsearch => ?_⟩
    exact (levelled_iff hover.exceeds hsearch).mpr (hnone st host hover)

end

/-- If the second iteration changes nothing, there is no third. -/
theorem Begins.eq_first {hosts : List Nat} {forwardFlows backwardFlows : FlowCountMap}
    {fuel fuel' : Nat} {st first second : Estimation}
    (h : Begins hosts forwardFlows backwardFlows fuel' st)
    (hfirst : iteration hosts forwardFlows backwardFlows fuel {} = some first)
    (hsecond : iteration hosts forwardFlows backwardFlows fuel first = some second)
    (hflag : second.flag = false) : st = {} ∨ st = first := by
  induction h with
  | first => exact .inl rfl
  | next _ hiter hflag' ih =>
    have hiter := iteration_mono (le_max_right fuel fuel') hiter
    rcases ih with rfl | rfl
    · rw [iteration_mono (le_max_left fuel fuel') hfirst] at hiter
      exact .inr (Option.some.inj hiter).symm
    · rw [iteration_mono (le_max_left fuel fuel') hsecond] at hiter
      obtain rfl := Option.some.inj hiter
      rw [hflag] at hflag'
      cases hflag'

/-- Two flows to a host. -/
def pairFlows : List Flow := [(0, 2), (1, 2)]

theorem pairFlows_begins {fuel : Nat} {st : Estimation}
    (h : Begins [0, 1, 2] (forwardFlows pairFlows) (backwardFlows pairFlows) fuel st) :
    st = {} ∨ iteration [0, 1, 2] (forwardFlows pairFlows) (backwardFlows pairFlows) 5 {} =
      some st := by
  have hlast : ((iteration [0, 1, 2] (forwardFlows pairFlows) (backwardFlows pairFlows) 5 {}).bind
      fun st => (iteration [0, 1, 2] (forwardFlows pairFlows) (backwardFlows pairFlows) 5 st).map
        (·.flag)) = some false := by decide +kernel
  obtain ⟨first, hfirst, hlast⟩ := bind_eq_some_iff.mp hlast
  obtain ⟨second, hsecond, hflag⟩ := map_eq_some_iff.mp hlast
  rcases h.eq_first hfirst hsecond hflag with rfl | rfl
  · exact .inl rfl
  · exact .inr hfirst

/-- Their receiver is oversubscribed in the first iteration only. -/
theorem pairFlows_turn {fuel host : Nat} {st : Estimation}
    (h : Oversubscribed [0, 1, 2] (forwardFlows pairFlows) (backwardFlows pairFlows) fuel st host) :
    host = 2 ∧ st = sourceSearches [0, 1, 2] (forwardFlows pairFlows) {} := by
  obtain ⟨⟨start, before, after, hbegins, hsplit, hbefore⟩, hexceeds⟩ := h
  -- the hosts before host 2 receive nothing
  have hempty : ∀ other st, other = 0 ∨ other = 1 →
      destinationSearch (backwardFlows pairFlows) fuel st other = some st := by
    rintro other st (rfl | rfl) <;> exact destinationSearch_eq _ _ _ _
  have hnothing : ∀ st : Estimation, ¬1 < total st.value [] := fun st => by
    rw [total]
    exact not_lt.mpr zero_le_one
  match before, hsplit, hbefore with
  | [], hsplit, _ =>
    cases hsplit
    exact absurd hexceeds (hnothing st)
  | [_], hsplit, _ =>
    cases hsplit
    exact absurd hexceeds (hnothing st)
  | [_, _], hsplit, hbefore =>
    cases hsplit
    rw [foldlM_cons, hempty 0 _ (.inl rfl), bind_eq_bind, bind_some, foldlM_cons,
      hempty 1 _ (.inr rfl), bind_eq_bind, bind_some] at hbefore
    obtain rfl := Option.some.inj hbefore
    rcases pairFlows_begins hbegins with rfl | hfirst
    · exact ⟨rfl, rfl⟩
    · have htotal : ((iteration [0, 1, 2] (forwardFlows pairFlows) (backwardFlows pairFlows) 5
          {}).map fun start => total (sourceSearches [0, 1, 2] (forwardFlows pairFlows) start).value
            (incoming (backwardFlows pairFlows) 2)) = some 1 := by decide +kernel
      rw [hfirst, Option.map_some, Option.some.injEq] at htotal
      rw [htotal] at hexceeds
      exact absurd hexceeds (lt_irrefl 1)
  | _ :: _ :: _ :: _, hsplit, _ => simp at hsplit

/-- Their receiver gives each of them half. -/
theorem demands_right_pair : ∃ flowEstimations,
    estimateFlow [0, 1, 2] (forwardFlows pairFlows) (backwardFlows pairFlows) 5 =
      some flowEstimations ∧
    pairFlows.map (demand flowEstimations) = [1 / 2, 1 / 2] ∧
    (∃ st, Oversubscribed [0, 1, 2] (forwardFlows pairFlows) (backwardFlows pairFlows) 5 st 2) ∧
    NoneSmall [0, 1, 2] (forwardFlows pairFlows) (backwardFlows pairFlows) 5 ∧
    Feasible [0, 1, 2] (forwardFlows pairFlows) (backwardFlows pairFlows) flowEstimations ∧
      DividesRightly [0, 1, 2] (forwardFlows pairFlows) (backwardFlows pairFlows) 5 := by
  have hreturns : (estimateFlow [0, 1, 2] (forwardFlows pairFlows) (backwardFlows pairFlows) 5).map
      (fun result => pairFlows.map (demand result)) = some [1 / 2, 1 / 2] := by decide +kernel
  obtain ⟨flowEstimations, h, hdemands⟩ := map_eq_some_iff.mp hreturns
  have hnone : NoneSmall [0, 1, 2] (forwardFlows pairFlows) (backwardFlows pairFlows) 5 := by
    intro st host hover
    obtain ⟨rfl, rfl⟩ := pairFlows_turn hover
    unfold Even
    decide +kernel
  have hover : Oversubscribed [0, 1, 2] (forwardFlows pairFlows) (backwardFlows pairFlows) 5
      (sourceSearches [0, 1, 2] (forwardFlows pairFlows) {}) 2 :=
    ⟨⟨{}, [0, 1], [], .first, rfl, rfl⟩, by decide +kernel⟩
  exact ⟨flowEstimations, h, hdemands, ⟨_, hover⟩, hnone, (demands_right_iff h).mpr hnone⟩

/-! ## 7. A small flow and a large one -/

/-- Host 0 has a flow to host 2 and three to host 3, and host 1 has a flow to host 2. -/
def mixedFlows : List Flow := [(0, 2), (0, 3), (0, 3), (0, 3), (1, 2)]

/-- `estimateFlow` returns 1/4 and 1/8 for the flows to host 2, which can take 1. -/
theorem demands_wrong : ∃ flowEstimations,
    estimateFlow [0, 1, 2, 3] (forwardFlows mixedFlows) (backwardFlows mixedFlows) 5 =
      some flowEstimations ∧
    total (demand flowEstimations) (incoming (backwardFlows mixedFlows) 2) = 3 / 8 ∧
    ¬(Feasible [0, 1, 2, 3] (forwardFlows mixedFlows) (backwardFlows mixedFlows) flowEstimations ∧
      DividesRightly [0, 1, 2, 3] (forwardFlows mixedFlows) (backwardFlows mixedFlows) 5) := by
  have hreturns : (estimateFlow [0, 1, 2, 3] (forwardFlows mixedFlows) (backwardFlows mixedFlows)
      5).map (fun result => total (demand result) (incoming (backwardFlows mixedFlows) 2)) =
        some (3 / 8) := by decide +kernel
  obtain ⟨flowEstimations, hreturns, htotal⟩ := Option.map_eq_some_iff.mp hreturns
  refine ⟨flowEstimations, hreturns, htotal, fun hright => ?_⟩
  -- the turn of host 2 in the first iteration
  have hturn : (([0, 1].foldlM (destinationSearch (backwardFlows mixedFlows) 5)
      (sourceSearches [0, 1, 2, 3] (forwardFlows mixedFlows) {})).bind fun st =>
        (destinationSearch (backwardFlows mixedFlows) 5 st 2).map fun st' =>
          (total st.value (incoming (backwardFlows mixedFlows) 2),
            total st'.value (incoming (backwardFlows mixedFlows) 2))) =
      some (5 / 4, 3 / 8) := by decide +kernel
  obtain ⟨st, hbefore, hturn⟩ := Option.bind_eq_some_iff.mp hturn
  obtain ⟨st', hsearch, htotals⟩ := Option.map_eq_some_iff.mp hturn
  obtain ⟨hover, hafter⟩ := Prod.mk.inj htotals
  have hreceives : Receives [0, 1, 2, 3] (forwardFlows mixedFlows) (backwardFlows mixedFlows) 5
      st 2 := ⟨{}, [0, 1], [3], .first, rfl, hbefore⟩
  have hfull := (hright.2 st st' 2 ⟨hreceives, by rw [hover]; norm_num⟩ hsearch).full
  rw [hafter] at hfull
  exact absurd hfull (by norm_num)

end MoeJit.Hedera
