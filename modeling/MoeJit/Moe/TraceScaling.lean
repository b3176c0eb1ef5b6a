import Mathlib.Data.Rat.Floor
import MoeJit.Moe.TraceMerge

/-!
# Scaled MoE traces

`MoeTraceParser::GenerateScaledEvents`: the templates of a batch are replayed in turn, with matrices
for another number of ranks, until there are as many events as asked for.

`scaled_iff`: the events are as they should be exactly if the number of events is limited (without a
limit there are none, `scaled_no_limit`), the number of ranks is not negative and all sizes can be
converted.

Numbers of type `double` are exact rationals. What is no part of the parser is `std::pow`, and what
a `double` holds that is not initialised.
-/

namespace MoeJit.TraceParser

open Words Grid List

/-! ## 1. Model -/

structure TraceConfig where
  targetN : Int := 16
  zipfAlpha : Rat := 6 / 5
  /-- If < 0, the time starts at 1 -/
  startTimeOffset : Rat := -1
  /-- Factor to multiply payload sizes -/
  volumeScale : Rat := 1
  /-- Factor to multiply computation delay -/
  computationScale : Rat := 1
  /-- If > 0, limit number of events -/
  maxEvents : Int := -1
  /-- If >= 0, only load events with this batch_id -/
  targetBatch : Int := -1
  /-- An `int`. -/
  maxEvents_lt : maxEvents < 2 ^ 31 := by decide

inductive ScaleFailure
  /-- A vector of negative size. -/
  | lengthError
  /-- A `double` that has no `size_t`. -/
  | conversion
  /-- The loop has not ended. -/
  | endless
  deriving DecidableEq

/-- Filter templates by batch first. -/
def filterTemplates (templates : List MoeGlobalEvent) (config : TraceConfig) :
    List MoeGlobalEvent :=
  templates.filter fun t => ¬(0 ≤ config.targetBatch ∧ t.batchId ≠ config.targetBatch)

/-- `static_cast<size_t>`. -/
def toSize (x : Rat) : Except ScaleFailure Nat :=
  if -1 < x ∧ x < 2 ^ 64 then .ok ⌊x⌋.toNat else .error .conversion

/-- The bytes of a row. -/
def rowBytes (row : List Nat) : Nat := row.foldl (fun s b => u64 (s + b)) 0

/-- `total_template_bytes` and `active_senders`. -/
def templateLoad (tmpl : MoeGlobalEvent) : Nat × Nat :=
  tmpl.trafficMatrix.foldl (fun (total_template_bytes, active_senders) row =>
    let s := rowBytes row
    if 0 < s then (u64 (total_template_bytes + s), active_senders + 1)
    else (total_template_bytes, active_senders)) (0, 0)

structure ReplayState where
  count : Nat
  currentSimTime : Rat
  scaledEvents : List MoeGlobalEvent

section

variable (pow : Rat → Rat → Rat) (unset : Rat) (config : TraceConfig)

/-- Zipf probabilities. -/
def zipfProbs : List Rat :=
  let zipf_probs := (List.range config.targetN.toNat).map fun i => 1 / pow (i + 1) config.zipfAlpha
  zipf_probs.map (· / zipf_probs.sum)

def scaledSizeF (tmpl : MoeGlobalEvent) (rank_idx : Nat) : Rat :=
  let (total_template_bytes, active_senders) := templateLoad tmpl
  total_template_bytes * config.volumeScale * (zipfProbs pow config).getD rank_idx 0 /
    (if 0 < active_senders then active_senders else 1)

def flowSize (scaled_size_f : Rat) : Except ScaleFailure Nat := do
  let flow_size ← toSize scaled_size_f
  return if flow_size = 0 ∧ 0 < scaled_size_f then 1 else flow_size

/-- The matrix of an event: no bytes on the diagonal. -/
def scaledMatrix (tmpl : MoeGlobalEvent) : Except ScaleFailure (List (List Nat)) :=
  (List.range config.targetN.toNat).mapM fun src =>
    (List.range config.targetN.toNat).mapM fun target =>
      if src = target then .ok 0 else flowSize (scaledSizeF pow config tmpl target)

/-- `raw_gap`: the time since the end of the previous template. -/
def rawGap (filtered : List MoeGlobalEvent) (st : ReplayState) (tmpl : MoeGlobalEvent) : Rat :=
  let raw_gap :=
    if st.count % filtered.length = 0 then 1 / 20
    else tmpl.startTime - (if st.scaledEvents.isEmpty then tmpl.startTime
      else (filtered.getD ((st.count - 1) % filtered.length) tmpl).endTime)
  if raw_gap < 0 then 1 / 100 else raw_gap

/-- The body of the loop over the templates. -/
def replayTemplate (filtered : List MoeGlobalEvent) (st : ReplayState) (tmpl : MoeGlobalEvent) :
    Except ScaleFailure ReplayState := do
  let computation_delay := rawGap filtered st tmpl * config.computationScale
  let duration := tmpl.endTime - tmpl.startTime
  let traffic_matrix ← scaledMatrix pow config tmpl
  let new_ev : MoeGlobalEvent := {
    globalId := u32 st.count
    batchId := tmpl.batchId
    op := tmpl.op
    startTime := st.currentSimTime
    endTime := unset
    computationDelay := some computation_delay
    trafficMatrix := traffic_matrix
    isConsistent := true }
  return {
    count := st.count + 1
    currentSimTime := st.currentSimTime + (computation_delay + duration)
    scaledEvents := st.scaledEvents ++ [new_ev] }

/-- The loop over the templates, which stops at the limit. -/
def replayPass (filtered : List MoeGlobalEvent) :
    List MoeGlobalEvent → ReplayState → Except ScaleFailure ReplayState
  | [], st => .ok st
  | tmpl :: rest, st =>
    if config.maxEvents ≤ st.count then .ok st
    else do
      let st ← replayTemplate pow unset config filtered st tmpl
      replayPass filtered rest st

/-- The `while` loop, for at most as many passes as the fuel says. -/
def replay (filtered : List MoeGlobalEvent) :
    Nat → ReplayState → Except ScaleFailure ReplayState
  | fuel, st =>
    if 0 < config.maxEvents ∧ st.count < config.maxEvents then
      match fuel with
      | 0 => .error .endless
      | fuel + 1 => do
        let st ← replayPass pow unset config filtered filtered st
        replay filtered fuel { st with currentSimTime := st.currentSimTime + 1 / 10 }
    else .ok st

/-- `GenerateScaledEvents`. Each pass of the loop generates an event. -/
def generateScaledEvents (templates : List MoeGlobalEvent) :
    Except ScaleFailure (List MoeGlobalEvent) :=
  let filtered := filterTemplates templates config
  if filtered = [] then .ok []
  else if config.targetN < 0 then .error .lengthError
  else do
    let st ← replay pow unset config filtered config.maxEvents.toNat {
      count := 0
      currentSimTime := if 0 ≤ config.startTimeOffset then config.startTimeOffset else 1
      scaledEvents := [] }
    return st.scaledEvents

end

/-! ## 2. Statement -/

section

variable (pow : Rat → Rat → Rat) (config : TraceConfig)

/-- Event `k` is made from the template whose turn it is. -/
structure ScaledEvent (filtered : List MoeGlobalEvent) (k : Nat) (ev : MoeGlobalEvent) : Prop where
  globalId_eq : ev.globalId = k
  template : ∃ tmpl, filtered[k % filtered.length]? = some tmpl ∧
    ev.batchId = tmpl.batchId ∧ ev.op = tmpl.op
  square : Square config.targetN.toNat ev.trafficMatrix
  diagonal : ∀ r < config.targetN.toNat, cell ev.trafficMatrix r r = some 0
  column : ∀ dst < config.targetN.toNat, ∀ src < config.targetN.toNat,
    ∀ src' < config.targetN.toNat, src ≠ dst → src' ≠ dst →
      cell ev.trafficMatrix src dst = cell ev.trafficMatrix src' dst

/-- No template ends before it starts, and no delay is scaled to a negative one. -/
def Forward (templates : List MoeGlobalEvent) : Prop :=
  (∀ t ∈ templates, t.startTime ≤ t.endTime) ∧ 0 ≤ config.computationScale

structure Scaled (templates events : List MoeGlobalEvent) : Prop where
  length_eq : events.length = if 0 < config.maxEvents then config.maxEvents.toNat
    else (filterTemplates templates config).length
  event : ∀ (k : Nat) (ev : MoeGlobalEvent), events[k]? = some ev →
    ScaledEvent config (filterTemplates templates config) k ev
  starts : Forward config templates → events.Pairwise fun ev ev' => ev.startTime ≤ ev'.startTime

/-- The sizes for a template can be converted. -/
def SizesFit (tmpl : MoeGlobalEvent) : Prop :=
  ∀ src < config.targetN.toNat, ∀ dst < config.targetN.toNat, src ≠ dst →
    -1 < scaledSizeF pow config tmpl dst ∧ scaledSizeF pow config tmpl dst < 2 ^ 64

/-- Those of the templates that are replayed. -/
def AllFit (filtered : List MoeGlobalEvent) : Prop :=
  ∀ k < config.maxEvents.toNat, ∀ tmpl, filtered[k % filtered.length]? = some tmpl →
    SizesFit pow config tmpl

end

/-! ## 3. One event -/

section

variable {pow : Rat → Rat → Rat} {unset : Rat} {config : TraceConfig}
  {templates filtered : List MoeGlobalEvent} {st : ReplayState} {tmpl : MoeGlobalEvent}

theorem toSize_ok {x : Rat} : (∃ n, toSize x = .ok n) ↔ -1 < x ∧ x < 2 ^ 64 := by
  rw [toSize]
  split_ifs with h
  · exact iff_of_true ⟨_, rfl⟩ h
  · refine iff_of_false ?_ h
    rintro ⟨n, hn⟩
    cases hn

theorem flowSize_ok {x : Rat} : (∃ n, flowSize x = .ok n) ↔ -1 < x ∧ x < 2 ^ 64 := by
  rw [← toSize_ok, flowSize]
  constructor
  · rintro ⟨n, hn⟩
    obtain ⟨m, hm, -⟩ := except_bind_eq_ok.mp hn
    exact ⟨m, hm⟩
  · rintro ⟨n, hn⟩
    exact ⟨_, by rw [hn]; rfl⟩

/-- A cell: off the diagonal it depends on the column only. -/
def scaledEntry (pow : Rat → Rat → Rat) (config : TraceConfig) (tmpl : MoeGlobalEvent)
    (src dst : Nat) : Nat :=
  if src = dst then 0 else (flowSize (scaledSizeF pow config tmpl dst)).toOption.getD 0

theorem scaledMatrix_ok (h : SizesFit pow config tmpl) : scaledMatrix pow config tmpl =
    .ok (build config.targetN.toNat (scaledEntry pow config tmpl)) := by
  refine except_mapM_of_eq fun src hsrc => except_mapM_of_eq fun dst hdst => ?_
  rw [scaledEntry]
  by_cases heq : src = dst
  · rw [if_pos heq, if_pos heq]
  · obtain ⟨n, hn⟩ := flowSize_ok.mpr (h src (mem_range.mp hsrc) dst (mem_range.mp hdst) heq)
    rw [if_neg heq, if_neg heq, hn]
    rfl

theorem sizesFit_of_scaledMatrix {m : List (List Nat)}
    (h : scaledMatrix pow config tmpl = .ok m) : SizesFit pow config tmpl := by
  intro src hsrc dst hdst hne
  obtain ⟨row, hrow⟩ := ok_of_mapM h (mem_range.mpr hsrc)
  obtain ⟨n, hn⟩ := ok_of_mapM hrow (mem_range.mpr hdst)
  rw [if_neg hne] at hn
  exact flowSize_ok.mp ⟨n, hn⟩

theorem rawGap_nonneg : 0 ≤ rawGap filtered st tmpl := by
  rw [rawGap]
  generalize (if st.count % filtered.length = 0 then (1 / 20 : Rat) else _) = raw_gap
  split_ifs with h
  · norm_num
  · exact not_lt.mp h

/-! ## 4. The replay -/

/-- What holds after each event. -/
structure Replayed (pow : Rat → Rat → Rat) (config : TraceConfig) (filtered : List MoeGlobalEvent)
    (st : ReplayState) : Prop where
  count_eq : st.count = st.scaledEvents.length
  le_limit : st.count ≤ config.maxEvents.toNat
  event : ∀ (k : Nat) (ev : MoeGlobalEvent), st.scaledEvents[k]? = some ev →
    ScaledEvent config filtered k ev
  fit : ∀ k < st.count, ∀ tmpl, filtered[k % filtered.length]? = some tmpl → SizesFit pow config tmpl
  starts : Forward config filtered →
    (st.scaledEvents.Pairwise fun ev ev' => ev.startTime ≤ ev'.startTime) ∧
      ∀ ev ∈ st.scaledEvents, ev.startTime ≤ st.currentSimTime

theorem replayed_init (time : Rat) : Replayed pow config filtered ⟨0, time, []⟩ where
  count_eq := rfl
  le_limit := Nat.zero_le _
  event k ev h := by simp at h
  fit k hk := absurd hk (Nat.not_lt_zero k)
  starts _ := ⟨.nil, by simp⟩

theorem Replayed.later (h : Replayed pow config filtered st) {time : Rat} (htime : 0 ≤ time) :
    Replayed pow config filtered { st with currentSimTime := st.currentSimTime + time } where
  count_eq := h.count_eq
  le_limit := h.le_limit
  event := h.event
  fit := h.fit
  starts hforward := ⟨(h.starts hforward).1, fun ev hev =>
    ((h.starts hforward).2 ev hev).trans (le_add_of_nonneg_right htime)⟩

theorem Replayed.push (h : Replayed pow config filtered st) {ev : MoeGlobalEvent} {time : Rat}
    (hlimit : st.count < config.maxEvents.toNat)
    (hturn : filtered[st.count % filtered.length]? = some tmpl) (hfit : SizesFit pow config tmpl)
    (hev : ScaledEvent config filtered st.count ev)
    (hstart : ev.startTime = st.currentSimTime) (htime : Forward config filtered → 0 ≤ time) :
    Replayed pow config filtered
      ⟨st.count + 1, st.currentSimTime + time, st.scaledEvents ++ [ev]⟩ where
  count_eq := by rw [length_append, length_singleton, h.count_eq]
  le_limit := hlimit
  event k ev' hget := by
    rcases lt_or_ge k st.scaledEvents.length with hk | hk
    · exact h.event k ev' (getElem?_append_left hk ▸ hget)
    · rw [getElem?_append_right hk] at hget
      rw [getElem?_singleton, Option.ite_none_right_eq_some] at hget
      obtain ⟨hzero, hsome⟩ := hget
      obtain rfl := Option.some.inj hsome
      have heq : k = st.count := by rw [h.count_eq]; omega
      exact heq ▸ hev
  fit k hk tmpl' htmpl' := by
    rcases Nat.lt_succ_iff_lt_or_eq.mp hk with hk | rfl
    · exact h.fit k hk tmpl' htmpl'
    · exact Option.some.inj (hturn.symm.trans htmpl') ▸ hfit
  starts hforward := by
    obtain ⟨hsorted, hbefore⟩ := h.starts hforward
    have hlater := le_add_of_nonneg_right (a := st.currentSimTime) (htime hforward)
    constructor
    · refine pairwise_append.mpr ⟨hsorted, pairwise_singleton _ _, fun ev' hev' ev'' heq => ?_⟩
      rw [mem_singleton.mp heq, hstart]
      exact hbefore ev' hev'
    · intro ev' hev'
      rcases mem_append.mp hev' with hold | hnew
      · exact (hbefore ev' hold).trans hlater
      · rw [mem_singleton.mp hnew, hstart]
        exact hlater

/-- An event takes the turn of its template, if the sizes can be converted. -/
theorem Replayed.template (h : Replayed pow config filtered st)
    (hlimit : st.count < config.maxEvents)
    (hturn : filtered[st.count % filtered.length]? = some tmpl) :
    ReturnsIf (AllFit pow config filtered) (replayTemplate pow unset config filtered st tmpl)
      fun st' => Replayed pow config filtered st' ∧ st'.count = st.count + 1 := by
  have hlt : st.count < config.maxEvents.toNat := by omega
  have hmem : tmpl ∈ filtered := mem_of_getElem? hturn
  have hint : st.count < 2 ^ 32 := by
    have := config.maxEvents_lt
    omega
  cases hmatrix : scaledMatrix pow config tmpl with
  | error e =>
    -- a conversion fails only where the sizes do not fit
    refine .inr ⟨⟨e, by rw [replayTemplate, hmatrix]; rfl⟩, fun hall => ?_⟩
    rw [scaledMatrix_ok (hall st.count hlt tmpl hturn)] at hmatrix
    cases hmatrix
  | ok m =>
    have hfit := sizesFit_of_scaledMatrix hmatrix
    obtain rfl := Except.ok.inj ((scaledMatrix_ok hfit).symm.trans hmatrix)
    rw [replayTemplate, hmatrix]
    refine returnsIf_ok ⟨h.push hlt hturn hfit ⟨?_, ⟨tmpl, hturn, rfl, rfl⟩, square_build _ _,
      fun r hr => ?_, fun dst hdst src hsrc src' hsrc' hne hne' => ?_⟩ rfl ?_, rfl⟩
    · exact Nat.mod_eq_of_lt hint
    · rw [cell_build hr hr, scaledEntry, if_pos rfl]
    · rw [cell_build hsrc hdst, cell_build hsrc' hdst, scaledEntry, scaledEntry, if_neg hne,
        if_neg hne']
    · intro hforward
      exact add_nonneg (mul_nonneg rawGap_nonneg hforward.2) (sub_nonneg.mpr (hforward.1 tmpl hmem))

variable (unset) in
/-- A pass goes on where the last event has left off, and ends after the last template or at the
limit. -/
theorem Replayed.pass (h : Replayed pow config filtered st) {done rest : List MoeGlobalEvent}
    {q : Nat} (hsplit : filtered = done ++ rest)
    (hcount : st.count = q * filtered.length + done.length) :
    ReturnsIf (AllFit pow config filtered) (replayPass pow unset config filtered rest st)
      fun st' => Replayed pow config filtered st' ∧
        (config.maxEvents ≤ st'.count ∨ filtered.length ∣ st'.count) ∧
        (rest ≠ [] → st.count < config.maxEvents → st.count < st'.count) ∧ st.count ≤ st'.count := by
  induction rest generalizing st done with
  | nil =>
    refine returnsIf_ok ⟨h, .inr ⟨q + 1, ?_⟩, fun hne => absurd rfl hne, le_refl _⟩
    rw [hcount, hsplit, append_nil, Nat.mul_succ, mul_comm]
  | cons tmpl rest ih =>
    rw [replayPass]
    by_cases hlimit : config.maxEvents ≤ st.count
    · rw [if_pos hlimit]
      exact returnsIf_ok ⟨h, .inl hlimit, fun _ hlt => absurd hlimit (not_le.mpr hlt), le_refl _⟩
    · rw [if_neg hlimit]
      have hlen := congrArg List.length hsplit
      rw [length_append, length_cons] at hlen
      have hmod : st.count % filtered.length = done.length := by
        rw [hcount, Nat.mul_add_mod']
        exact Nat.mod_eq_of_lt (by omega)
      have hturn : filtered[st.count % filtered.length]? = some tmpl := by
        rw [hmod, hsplit]
        simp
      refine (h.template (not_le.mp hlimit) hturn).bind fun st₁ ⟨hst₁, hnext⟩ => ?_
      -- the next template is the one whose turn it is, since the count grew by one
      have hsplit' : filtered = (done ++ [tmpl]) ++ rest := by
        rw [hsplit, append_assoc]
        rfl
      have hrest := ih hst₁ hsplit' (by
        rw [hnext, hcount, length_append, length_singleton, add_assoc])
      refine hrest.mono fun st₂ ⟨hst₂, hend, _, hle⟩ => ⟨hst₂, hend, fun _ _ => ?_, ?_⟩
      · omega
      · omega

theorem replay_of_not (h : ¬(0 < config.maxEvents ∧ st.count < config.maxEvents)) (fuel : Nat) :
    replay pow unset config filtered fuel st = .ok st := by
  rw [replay.eq_def]
  exact if_neg h

variable (unset) in
theorem Replayed.replay (h : Replayed pow config filtered st) (hne : filtered ≠ [])
    (hpos : 0 < config.maxEvents)
    (hend : config.maxEvents ≤ st.count ∨ filtered.length ∣ st.count) {fuel : Nat}
    (hfuel : config.maxEvents.toNat ≤ st.count + fuel) :
    ReturnsIf (AllFit pow config filtered) (replay pow unset config filtered fuel st)
      fun st' => Replayed pow config filtered st' ∧ st'.count = config.maxEvents.toNat := by
  induction fuel generalizing st with
  | zero =>
    have hlimit := h.le_limit
    rw [replay_of_not (by omega)]
    exact returnsIf_ok ⟨h, by omega⟩
  | succ fuel ih =>
    rw [TraceParser.replay]
    by_cases hlt : st.count < config.maxEvents
    · rw [if_pos ⟨hpos, hlt⟩]
      -- below the limit a pass ends after its last template, so the next one starts at the first
      obtain ⟨q, hq⟩ := hend.resolve_left (not_le.mpr hlt)
      have hpass := h.pass unset (show filtered = [] ++ filtered from rfl) (q := q) (by
        rw [hq, mul_comm, length_nil, add_zero])
      refine hpass.bind fun st₁ ⟨hst₁, hend₁, hmore, _⟩ => ?_
      have hprogress := hmore hne hlt
      refine ih (hst₁.later (by norm_num)) hend₁ ?_
      show _ ≤ st₁.count + fuel
      omega
    · have hlimit := h.le_limit
      rw [if_neg fun h => hlt h.2]
      exact returnsIf_ok ⟨h, by omega⟩

theorem filterTemplates_ne_nil
    (h : ∃ t ∈ templates, config.targetBatch < 0 ∨ t.batchId = config.targetBatch) :
    filterTemplates templates config ≠ [] := by
  obtain ⟨t, ht, hbatch⟩ := h
  refine ne_nil_of_mem (mem_filter.mpr ⟨ht, decide_eq_true ?_⟩)
  rintro ⟨hnonneg, hother⟩
  rcases hbatch with hneg | heq
  · exact not_lt.mpr hnonneg hneg
  · exact hother heq

theorem Forward.filter (h : Forward config templates) :
    Forward config (filterTemplates templates config) :=
  ⟨fun t ht => h.1 t (mem_of_mem_filter ht), h.2⟩

/-- There are as many events as asked for, made in turn from the templates of the batch, if and only
if a number is asked for, the number of ranks is not negative and all sizes can be converted. -/
theorem scaled_iff (pow : Rat → Rat → Rat) (unset : Rat) (config : TraceConfig)
    (templates : List MoeGlobalEvent)
    (h : ∃ t ∈ templates, config.targetBatch < 0 ∨ t.batchId = config.targetBatch) :
    (∃ events, generateScaledEvents pow unset config templates = .ok events ∧
        Scaled config templates events) ↔
      0 < config.maxEvents ∧ 0 ≤ config.targetN ∧
        AllFit pow config (filterTemplates templates config) := by
  have hne := filterTemplates_ne_nil h
  rw [generateScaledEvents, if_neg hne]
  by_cases htarget : config.targetN < 0
  · rw [if_pos htarget]
    refine iff_of_false ?_ fun h => not_lt.mpr h.2.1 htarget
    rintro ⟨events, hevents, -⟩
    cases hevents
  rw [if_neg htarget]
  by_cases hpositive : 0 < config.maxEvents
  · have hinit : Replayed pow config (filterTemplates templates config) ⟨0, _, []⟩ :=
      replayed_init (if 0 ≤ config.startTimeOffset then config.startTimeOffset else 1)
    have hreplay := hinit.replay unset hne hpositive (.inr (dvd_zero _))
      (Nat.le_add_left config.maxEvents.toNat 0)
    constructor
    · rintro ⟨events, hevents, -⟩
      obtain ⟨st, hok, -⟩ := except_bind_eq_ok.mp hevents
      obtain ⟨hst, hcount⟩ := hreplay.of_ok hok
      exact ⟨hpositive, not_lt.mp htarget, fun k hk => hst.fit k (hcount ▸ hk)⟩
    · rintro ⟨-, -, hfit⟩
      obtain ⟨st, hok, hst, hcount⟩ := hreplay.ok hfit
      refine ⟨st.scaledEvents, except_bind_eq_ok.mpr ⟨st, hok, rfl⟩, ?_, hst.event,
        fun hforward => (hst.starts hforward.filter).1⟩
      rw [if_pos hpositive, ← hst.count_eq, hcount]
  · -- without a limit, the loop does not begin
    refine iff_of_false ?_ fun h => hpositive h.1
    rintro ⟨events, hevents, hscaled⟩
    obtain ⟨st, hok, heq⟩ := except_bind_eq_ok.mp hevents
    rw [replay_of_not fun h => hpositive h.1] at hok
    cases hok
    cases heq
    have hlength := hscaled.length_eq
    rw [if_neg hpositive, List.length_nil] at hlength
    exact hne (List.length_eq_zero_iff.mp hlength.symm)

end

/-! ## 5. Replays of one template -/

/-- Two ranks, of which the first sends 6 bytes to the other. -/
def template : MoeGlobalEvent where
  globalId := 0
  batchId := 0
  op := "DISPATCH"
  startTime := 0
  endTime := 1
  trafficMatrix := [[0, 6], [0, 0]]
  isConsistent := true

/-- Five events for three ranks. -/
theorem scaled_iff_five :
    ∃ events, generateScaledEvents (fun x _ => x) 0 { targetN := 3, maxEvents := 5 } [template] =
        .ok events ∧ Scaled { targetN := 3, maxEvents := 5 } [template] events := by
  refine (scaled_iff _ 0 { targetN := 3, maxEvents := 5 } [template]
    ⟨template, by simp, by decide⟩).mpr ⟨by decide, by decide, fun k _ tmpl htmpl => ?_⟩
  obtain rfl := List.mem_singleton.mp (List.mem_of_mem_filter (List.mem_of_getElem? htmpl))
  have hall : ∀ src < 3, ∀ dst < 3, src ≠ dst →
      -1 < scaledSizeF (fun x _ => x) { targetN := 3, maxEvents := 5 } template dst ∧
      scaledSizeF (fun x _ => x) { targetN := 3, maxEvents := 5 } template dst < 2 ^ 64 := by
    decide +kernel
  exact hall

/-- Without a limit there is no event, although a template matches. -/
theorem scaled_no_limit :
    ¬∃ events, generateScaledEvents (fun x _ => x) 0 {} [template] = .ok events ∧
      Scaled {} [template] events := by
  rintro ⟨events, hevents, hscaled⟩
  have hnone : (generateScaledEvents (fun x _ => x) 0 {} [template]).toOption.map List.length =
      some 0 := by decide +kernel
  have hone : (filterTemplates [template] {}).length = 1 := by decide +kernel
  rw [hevents] at hnone
  have hlength := hscaled.length_eq
  rw [if_neg (by decide), hone, Option.some.inj hnone] at hlength
  cases hlength

end MoeJit.TraceParser
