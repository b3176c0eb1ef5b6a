import MoeJit.Topology.BatchWindows
import Mathlib.Order.Bounds.Basic

/-!
# Windows of predictions

`FattreeTopology::prediction_callback_with_hedera` and
`DragonflyTopology::prediction_callback_for_MUSE`. The predictions for a batch and a size widen a
window: an earlier begin and a later end are recorded, each by a branch of its own, and flows are to
be added at the begin and cleared at the end.

`window_is_hull`: in every run of predictions that fit, the window is from the least begin to the
greatest end, and what is to happen at those times is scheduled. What does not fit are ends that are
other numbers as an `int`, and the first prediction of a batch when it has begun but not ended
(`end_not_recorded`).
-/

namespace MoeJit.PredictionWindows

open BatchWindows (Window uint64 int64 int64_of_lt uint64_spec)

/-! ## 1. Model -/

/-- The conversion to an `int`. -/
def int32 (n : Int) : Int := n.bmod (2 ^ 32)

/-- A batch and a size of its communication. -/
abbrev Key := Int × Nat

/-- What is scheduled; the addition of flows is `multiple_incremental_changes` in the dragonfly. -/
inductive Action
  | addFlows (key : Key)
  | clearFlows (key : Key)
  deriving DecidableEq

/-- The parameters of the callbacks. The begin is in nanoseconds, with 64 bits. -/
structure Prediction where
  batchID : Int
  commBeginTime : Int
  commSize : Nat
  commBeginTime_range : -2 ^ 63 ≤ commBeginTime ∧ commBeginTime < 2 ^ 63 := by decide

def Prediction.key (p : Prediction) : Key := (p.batchID, p.commSize)

/-- The members that the callbacks use. -/
structure Topology where
  /-- `number_of_servers` of the fat tree. -/
  serverCount : Nat
  now : Int := 0
  events : EventQueue Action := .empty
  batchCommsizeMap : AList fun _ : Key => Window := ∅

namespace Topology

/-- `Schedule`, which asserts that the delay is not negative. -/
def schedule (st : Topology) (delay : Int) (action : Action) : Option Topology :=
  if 0 ≤ delay then some { st with events := st.events.schedule ⟨st.now + delay, action⟩ } else none

def setWindow (st : Topology) (key : Key) (w : Window) : Topology :=
  { st with batchCommsizeMap := st.batchCommsizeMap.insert key w }

/-- `comm_end_time_nano`, unsigned. -/
def commEndTime (st : Topology) (bandwidth : Int) (p : Prediction) : Int :=
  uint64 (p.commBeginTime + uint64 (2 * st.serverCount * p.commSize * 8) / bandwidth)

/-- If the begin lies ahead, flows will be added then and cleared at the end. -/
def announce (st : Topology) (ahead : Prop) [Decidable ahead] (p : Prediction)
    (comm_end_time : Int) : Option Topology :=
  if ahead then do
    let st ← st.schedule (int64 (p.commBeginTime - st.now)) (.addFlows p.key)
    st.schedule (int64 (comm_end_time - st.now)) (.clearFlows p.key)
  else some st

/-- The branch for the begin, which the callbacks have in common but for the test whether the begin
lies ahead. -/
def recordBegin (st : Topology) (ahead : Prop) [Decidable ahead] (p : Prediction)
    (comm_end_time : Int) : Option Topology :=
  match st.batchCommsizeMap.lookup p.key with
  | none => (st.announce ahead p comm_end_time).map
      (·.setWindow p.key ⟨p.commBeginTime, int64 comm_end_time⟩)
  | some w =>
    if p.commBeginTime < w.earliest then (st.announce ahead p comm_end_time).map
      (·.setWindow p.key ⟨p.commBeginTime, w.latest⟩)
    else some st

end Topology

def FattreeTopology.predictionCallbackWithHedera (p : Prediction) (st : Topology) :
    Option Topology := do
  let comm_end_time := st.commEndTime 1000 p
  let st ← st.recordBegin (0 < int64 (p.commBeginTime - st.now)) p comm_end_time
  match st.batchCommsizeMap.lookup p.key with
  | none => some st
  | some w =>
    if w.latest < int32 comm_end_time then
      if 0 < uint64 (comm_end_time - st.now) then
        (st.setWindow p.key ⟨w.earliest, int64 comm_end_time⟩).schedule
          (int64 (comm_end_time - st.now)) (.clearFlows p.key)
      else some st
    else some st

def DragonflyTopology.predictionCallbackForMuse (p : Prediction) (st : Topology) :
    Option Topology := do
  let comm_end_time := st.commEndTime 300 p
  let st ← st.recordBegin (0 < int32 (p.commBeginTime - st.now)) p comm_end_time
  match st.batchCommsizeMap.lookup p.key with
  | none => some st
  | some w =>
    if w.latest < int32 comm_end_time then
      let st := st.setWindow p.key ⟨w.earliest, int64 comm_end_time⟩
      if 0 < int32 (comm_end_time - st.now) then
        st.schedule (int64 (comm_end_time - st.now)) (.clearFlows p.key)
      else some st
    else some st

inductive Kind
  | fattree
  | dragonfly

namespace Kind

def bandwidth : Kind → Int
  | fattree => 1000
  | dragonfly => 300

def predictionCallback : Kind → Prediction → Topology → Option Topology
  | fattree => FattreeTopology.predictionCallbackWithHedera
  | dragonfly => DragonflyTopology.predictionCallbackForMuse

end Kind

/-- What happens next: a prediction, the next event, or something else at a later time. -/
inductive Op
  | predict (p : Prediction)
  | next
  | pass (time : Int)

/-- A step, unless an assertion fails. What an event does with the flows changes no window. -/
def Topology.step (kind : Kind) (st : Topology) : Op → Option Topology
  | .predict p => kind.predictionCallback p st
  | .next =>
    match st.events.events with
    | [] => none
    | e :: _ => some { st with now := e.time, events := st.events.tail }
  | .pass time =>
    if st.now ≤ time ∧ time < 2 ^ 63 ∧ ∀ e ∈ st.events.events, time ≤ e.time then
      some { st with now := time }
    else none

/-- The predictions of a step. -/
def Op.predictions : Op → List Prediction
  | .predict p => [p]
  | _ => []

/-- The topologies that are reached by steps that satisfy a condition, with the predictions up to
then. -/
inductive Run (kind : Kind) (serverCount : Nat) (ok : Topology → Op → Prop) :
    List Prediction → Topology → Prop
  | init : Run kind serverCount ok [] { serverCount }
  | step {ps : List Prediction} {st st' : Topology} (op : Op) : Run kind serverCount ok ps st →
      ok st op → st.step kind op = some st' → Run kind serverCount ok (op.predictions ++ ps) st'

/-! ## 2. Statement -/

namespace Topology

variable (kind : Kind) (st : Topology)

/-- The test whether a begin lies ahead. -/
def ahead (p : Prediction) : Prop :=
  match kind with
  | .fattree => 0 < int64 (p.commBeginTime - st.now)
  | .dragonfly => 0 < int32 (p.commBeginTime - st.now)

/-- There is no window, or it begins later. -/
def BeginsEarlier (p : Prediction) : Prop :=
  ∀ w, st.batchCommsizeMap.lookup p.key = some w → p.commBeginTime < w.earliest

/-- The tests for the end notice that it is later than the one recorded, and whether it lies
ahead. -/
def NoticesEnd (latest comm_end_time : Int) : Prop :=
  latest < int32 comm_end_time ∧
    match kind with
    | .fattree => st.now < comm_end_time
    | .dragonfly => (st.now < comm_end_time ↔ 0 < int32 (comm_end_time - st.now))

/-- A prediction whose end is a signed number; the tests find a new begin, or the end of a new
window, ahead exactly if it is, and notice a later end. -/
def Fits : Op → Prop
  | .predict p =>
    let comm_end_time := st.commEndTime kind.bandwidth p
    comm_end_time < 2 ^ 63 ∧
    (st.BeginsEarlier p → (st.ahead kind p → st.now ≤ p.commBeginTime ∧ st.now ≤ comm_end_time) ∧
      (st.now < p.commBeginTime → st.ahead kind p) ∧
      (st.batchCommsizeMap.lookup p.key = none → st.now < comm_end_time → st.ahead kind p)) ∧
    ∀ w, st.batchCommsizeMap.lookup p.key = some w → w.latest < comm_end_time →
      st.NoticesEnd kind w.latest comm_end_time
  | _ => True

/-- The window of a key is from the least begin to the greatest end of its predictions. -/
structure Hull (ps : List Prediction) (key : Key) (w : Window) : Prop where
  earliest : IsLeast {t | ∃ p ∈ ps, p.key = key ∧ p.commBeginTime = t} w.earliest
  latest : IsGreatest {t | ∃ p ∈ ps, p.key = key ∧ st.commEndTime kind.bandwidth p = t} w.latest

/-- What is to happen at the begin and at the end of a window is scheduled. -/
structure Scheduled (key : Key) (w : Window) : Prop where
  add : st.now < w.earliest → ⟨w.earliest, .addFlows key⟩ ∈ st.events.events
  clear : st.now < w.latest → ⟨w.latest, .clearFlows key⟩ ∈ st.events.events

end Topology

/-! ## 3. One prediction -/

variable {st₁ : Topology} {w : Window}

section

variable {kind : Kind} {st st' : Topology} {p : Prediction} {comm_end_time : Int}

/-- Nothing is taken from the queue, and nothing is scheduled in the past. -/
structure Grows (st st' : Topology) : Prop where
  now_eq : st'.now = st.now
  serverCount_eq : st'.serverCount = st.serverCount
  events : ∀ e ∈ st.events.events, e ∈ st'.events.events
  pending : ∀ e ∈ st'.events.events, e ∈ st.events.events ∨ st.now ≤ e.time

theorem Grows.refl (st : Topology) : Grows st st := ⟨rfl, rfl, fun _ => id, fun _ => .inl⟩

theorem Grows.trans {st₂ : Topology} (h : Grows st st₁) (h' : Grows st₁ st₂) : Grows st st₂ where
  now_eq := h'.now_eq.trans h.now_eq
  serverCount_eq := h'.serverCount_eq.trans h.serverCount_eq
  events e he := h'.events e (h.events e he)
  pending e he := by
    rcases h'.pending e he with hold | hnew
    · exact h.pending e hold
    · exact .inr (h.now_eq ▸ hnew)

theorem Grows.setWindow (h : Grows st st') (key : Key) (w : Window) :
    Grows st (st'.setWindow key w) := ⟨h.now_eq, h.serverCount_eq, h.events, h.pending⟩

theorem lookup_setWindow (st : Topology) (key : Key) (w : Window) :
    (st.setWindow key w).batchCommsizeMap.lookup key = some w := AList.lookup_insert _

theorem lookup_setWindow_of_ne {key key' : Key} (h : key' ≠ key) (w : Window) :
    (st.setWindow key w).batchCommsizeMap.lookup key' = st.batchCommsizeMap.lookup key' :=
  AList.lookup_insert_ne h

theorem schedule_ok {time : Int} (hnow : 0 ≤ st.now) (hle : st.now ≤ time) (hlt : time < 2 ^ 63)
    (action : Action) : ∃ st', st.schedule (int64 (time - st.now)) action = some st' ∧
      Grows st st' ∧ st'.batchCommsizeMap = st.batchCommsizeMap ∧
      ⟨time, action⟩ ∈ st'.events.events := by
  refine ⟨{ st with events := st.events.schedule ⟨time, action⟩ }, ?_,
    ⟨rfl, rfl, fun e he => EventQueue.mem_schedule.mpr (.inr he), fun e he => ?_⟩, rfl,
    EventQueue.mem_schedule.mpr (.inl rfl)⟩
  · rw [int64_of_lt (by omega) (by omega), Topology.schedule, if_pos (by omega), add_sub_cancel]
  · rcases EventQueue.mem_schedule.mp he with rfl | hold
    · exact .inr hle
    · exact .inl hold

theorem announce_ok {ahead : Prop} [Decidable ahead] (hnow : 0 ≤ st.now)
    (hend : comm_end_time < 2 ^ 63)
    (hahead : ahead → st.now ≤ p.commBeginTime ∧ st.now ≤ comm_end_time) :
    ∃ st', st.announce ahead p comm_end_time = some st' ∧ Grows st st' ∧
      st'.batchCommsizeMap = st.batchCommsizeMap ∧
      (ahead → ⟨p.commBeginTime, .addFlows p.key⟩ ∈ st'.events.events ∧
        ⟨comm_end_time, .clearFlows p.key⟩ ∈ st'.events.events) := by
  rw [Topology.announce]
  split_ifs with h
  · obtain ⟨st₁, hok₁, hgrows₁, hmap₁, hadd⟩ := schedule_ok hnow (hahead h).1
      p.commBeginTime_range.2 (.addFlows p.key)
    obtain ⟨st₂, hok₂, hgrows₂, hmap₂, hclear⟩ := @schedule_ok st₁ _ (hgrows₁.now_eq.symm ▸ hnow)
      (hgrows₁.now_eq.symm ▸ (hahead h).2) hend (.clearFlows p.key)
    refine ⟨st₂, ?_, hgrows₁.trans hgrows₂, hmap₂.trans hmap₁,
      fun _ => ⟨hgrows₂.events _ hadd, hclear⟩⟩
    rw [hok₁, Option.bind_eq_bind, Option.bind_some, hok₂]
  · exact ⟨st, rfl, Grows.refl st, rfl, fun hpos => absurd hpos h⟩

/-- A window that a prediction has widened at its begin, or opened, and at its end up to a time. -/
structure Widened (st st' : Topology) (p : Prediction) (comm_end_time : Int) (raise : Int → Int) :
    Prop extends Grows st st' where
  other : ∀ key, key ≠ p.key →
    st'.batchCommsizeMap.lookup key = st.batchCommsizeMap.lookup key
  opened : st.batchCommsizeMap.lookup p.key = none →
    st'.batchCommsizeMap.lookup p.key = some ⟨p.commBeginTime, comm_end_time⟩ ∧
      (st.now < p.commBeginTime → ⟨p.commBeginTime, .addFlows p.key⟩ ∈ st'.events.events) ∧
      (st.now < comm_end_time → ⟨comm_end_time, .clearFlows p.key⟩ ∈ st'.events.events)
  widened : ∀ w, st.batchCommsizeMap.lookup p.key = some w →
    st'.batchCommsizeMap.lookup p.key = some ⟨min w.earliest p.commBeginTime, raise w.latest⟩ ∧
      (p.commBeginTime < w.earliest → st.now < p.commBeginTime →
        ⟨p.commBeginTime, .addFlows p.key⟩ ∈ st'.events.events) ∧
      (w.latest < raise w.latest → st.now < raise w.latest →
        ⟨raise w.latest, .clearFlows p.key⟩ ∈ st'.events.events)

theorem recordBegin_ok {ahead : Prop} [Decidable ahead] (hnow : 0 ≤ st.now)
    (hend : 0 ≤ comm_end_time ∧ comm_end_time < 2 ^ 63)
    (hbegin : st.BeginsEarlier p → (ahead → st.now ≤ p.commBeginTime ∧ st.now ≤ comm_end_time) ∧
      (st.now < p.commBeginTime → ahead) ∧
      (st.batchCommsizeMap.lookup p.key = none → st.now < comm_end_time → ahead)) :
    ∃ st', st.recordBegin ahead p comm_end_time = some st' ∧ Widened st st' p comm_end_time id := by
  rw [Topology.recordBegin]
  cases hlookup : st.batchCommsizeMap.lookup p.key with
  | none =>
    obtain ⟨hahead, hbegins, hends⟩ := hbegin fun w hw => by
      rw [hlookup] at hw
      cases hw
    obtain ⟨st₁, hok, hgrows, hmap, hevents⟩ := announce_ok (p := p) hnow hend.2 hahead
    refine ⟨_, congrArg (Option.map _) hok, hgrows.setWindow _ _, fun key hkey => ?_,
      fun _ => ⟨?_, fun h => (hevents (hbegins h)).1, fun h => (hevents (hends hlookup h)).2⟩,
      fun w hw => ?_⟩
    · rw [lookup_setWindow_of_ne hkey, hmap]
    · rw [lookup_setWindow, int64_of_lt (by omega) hend.2]
    · rw [hlookup] at hw
      cases hw
  | some w =>
    have hsame : ∀ w', st.batchCommsizeMap.lookup p.key = some w' → w' = w := fun w' hw' =>
      Option.some.inj (hw'.symm.trans hlookup)
    by_cases hearlier : p.commBeginTime < w.earliest
    · obtain ⟨hahead, hbegins, -⟩ := hbegin fun w' hw' => hsame w' hw' ▸ hearlier
      obtain ⟨st₁, hok, hgrows, hmap, hevents⟩ := announce_ok (p := p) hnow hend.2 hahead
      refine ⟨st₁.setWindow p.key ⟨p.commBeginTime, w.latest⟩, ?_, hgrows.setWindow _ _,
        fun key hkey => ?_, fun h => ?_, fun w' hw' => ?_⟩
      · dsimp only
        rw [if_pos hearlier, hok, Option.map_some]
      · rw [lookup_setWindow_of_ne hkey, hmap]
      · rw [hlookup] at h
        cases h
      · obtain rfl := hsame w' hw'
        refine ⟨?_, fun _ h => (hevents (hbegins h)).1, fun h => absurd h (lt_irrefl _)⟩
        rw [lookup_setWindow, min_eq_right hearlier.le, id]
    · refine ⟨st, if_neg hearlier, Grows.refl st, fun _ _ => rfl, fun h => ?_, fun w' hw' => ?_⟩
      · rw [hlookup] at h
        cases h
      · obtain rfl := hsame w' hw'
        refine ⟨?_, fun h => absurd h hearlier, fun h => absurd h (lt_irrefl _)⟩
        rw [hw', min_eq_left (not_lt.mp hearlier), id]

theorem int32_le {n : Int} (h : 0 ≤ n) : int32 n ≤ n := by
  rw [int32, Int.bmod_def]
  omega

theorem Widened.raise (h : Widened st st₁ p comm_end_time id)
    (hw : st.batchCommsizeMap.lookup p.key = some w) (hlater : w.latest < comm_end_time)
    (hgrows : Grows st₁ st') (hmap : st'.batchCommsizeMap = (st₁.setWindow p.key
      ⟨min w.earliest p.commBeginTime, comm_end_time⟩).batchCommsizeMap)
    (hclear : st.now < comm_end_time → ⟨comm_end_time, .clearFlows p.key⟩ ∈ st'.events.events) :
    Widened st st' p comm_end_time (max · comm_end_time) where
  toGrows := h.toGrows.trans hgrows
  other key hkey := by
    rw [hmap, lookup_setWindow_of_ne hkey, h.other key hkey]
  opened hnone := by
    rw [hw] at hnone
    cases hnone
  widened w' hw' := by
    obtain rfl := Option.some.inj (hw'.symm.trans hw)
    obtain ⟨-, hadd, -⟩ := h.widened w' hw'
    rw [hmap, lookup_setWindow, max_eq_right hlater.le]
    exact ⟨rfl, fun hearlier hahead => hgrows.events _ (hadd hearlier hahead), fun _ => hclear⟩

/-- An end that is not later than the one recorded changes nothing. -/
theorem Widened.keep (h : Widened st st₁ p comm_end_time id)
    (hlater : ∀ w, st.batchCommsizeMap.lookup p.key = some w → comm_end_time ≤ w.latest) :
    Widened st st₁ p comm_end_time (max · comm_end_time) where
  toGrows := h.toGrows
  other := h.other
  opened := h.opened
  widened w hw := by
    obtain ⟨hlookup, hadd, -⟩ := h.widened w hw
    rw [max_eq_left (hlater w hw)]
    exact ⟨hlookup, hadd, fun hlt => absurd hlt (lt_irrefl _)⟩

theorem commEndTime_range (st : Topology) (bandwidth : Int) (p : Prediction) :
    0 ≤ st.commEndTime bandwidth p := (uint64_spec _).1

theorem Widened.lookup {raise : Int → Int} (h : Widened st st₁ p comm_end_time raise) :
    (st.batchCommsizeMap.lookup p.key = none ∧
      st₁.batchCommsizeMap.lookup p.key = some ⟨p.commBeginTime, comm_end_time⟩) ∨
    ∃ w, st.batchCommsizeMap.lookup p.key = some w ∧ st₁.batchCommsizeMap.lookup p.key =
        some ⟨min w.earliest p.commBeginTime, raise w.latest⟩ := by
  cases hlookup : st.batchCommsizeMap.lookup p.key with
  | none => exact .inl ⟨rfl, (h.opened hlookup).1⟩
  | some w => exact .inr ⟨w, rfl, (h.widened w hlookup).1⟩

/-- The branch for the end, after the one for the begin: what is left to show is that a later end
is noticed and recorded. -/
theorem recordEnd_ok (hbegun : Widened st st₁ p comm_end_time id) (hpos : 0 ≤ comm_end_time)
    {record : Window → Option Topology}
    (hrecord : ∀ w, st.batchCommsizeMap.lookup p.key = some w → w.latest < comm_end_time →
      w.latest < int32 comm_end_time ∧
        ∃ st', record ⟨min w.earliest p.commBeginTime, w.latest⟩ = some st' ∧
          Widened st st' p comm_end_time (max · comm_end_time)) :
    ∃ st', (match st₁.batchCommsizeMap.lookup p.key with
        | none => some st₁
        | some w => if w.latest < int32 comm_end_time then record w else some st₁) = some st' ∧
      Widened st st' p comm_end_time (max · comm_end_time) := by
  have hint := int32_le hpos
  rcases hbegun.lookup with ⟨hnone, hlookup⟩ | ⟨w, hw, hlookup⟩
  · refine ⟨st₁, ?_, hbegun.keep fun w hw => ?_⟩
    · rw [hlookup]
      exact if_neg (not_lt.mpr hint)
    · rw [hnone] at hw
      cases hw
  · rw [hlookup]
    by_cases hlater : w.latest < comm_end_time
    · obtain ⟨hnoticed, st₂, hok, hwidened⟩ := hrecord w hw hlater
      exact ⟨st₂, (if_pos hnoticed).trans hok, hwidened⟩
    · refine ⟨st₁, if_neg ?_, hbegun.keep fun w' hw' => ?_⟩
      · exact not_lt.mpr (hint.trans (not_lt.mp hlater))
      · exact Option.some.inj (hw'.symm.trans hw) ▸ not_lt.mp hlater

/-- A later end is recorded, and the flows are to be cleared then. -/
theorem Widened.schedule (h : Widened st st₁ p comm_end_time id)
    (hw : st.batchCommsizeMap.lookup p.key = some w) (hlater : w.latest < comm_end_time)
    (hnow : 0 ≤ st.now) (hahead : st.now ≤ comm_end_time) (hend : comm_end_time < 2 ^ 63) :
    ∃ st', (st₁.setWindow p.key ⟨min w.earliest p.commBeginTime, comm_end_time⟩).schedule
        (int64 (comm_end_time - st₁.now)) (.clearFlows p.key) = some st' ∧
      Widened st st' p comm_end_time (max · comm_end_time) := by
  have hsame : st₁.now = st.now := h.now_eq
  obtain ⟨st₂, hok, hgrows, hmap, hclear⟩ := @schedule_ok
    (st₁.setWindow p.key ⟨min w.earliest p.commBeginTime, comm_end_time⟩) _
    (hsame.symm ▸ hnow) (hsame.symm ▸ hahead) hend (.clearFlows p.key)
  exact ⟨st₂, hok, h.raise hw hlater
    ⟨hgrows.now_eq, hgrows.serverCount_eq, hgrows.events, hgrows.pending⟩ hmap fun _ => hclear⟩

theorem predictionCallbackWithHedera_ok (hnow : 0 ≤ st.now)
    (hfits : st.Fits .fattree (.predict p)) :
    ∃ st', FattreeTopology.predictionCallbackWithHedera p st = some st' ∧
      Widened st st' p (st.commEndTime 1000 p) (max · (st.commEndTime 1000 p)) := by
  obtain ⟨hend, hbegin, hnotice⟩ := hfits
  have hpos := commEndTime_range st 1000 p
  simp only [Kind.bandwidth] at hend hbegin hnotice
  rw [FattreeTopology.predictionCallbackWithHedera]
  generalize st.commEndTime 1000 p = comm_end_time at hend hbegin hnotice hpos
  obtain ⟨st₁, hok, hbegun⟩ := @recordBegin_ok st p comm_end_time
    (0 < int64 (p.commBeginTime - st.now)) _ hnow ⟨hpos, hend⟩ hbegin
  rw [hok, Option.bind_eq_bind, Option.bind_some]
  refine recordEnd_ok hbegun hpos fun w hw hlater => ?_
  obtain ⟨hnoticed, hahead⟩ := hnotice w hw hlater
  have hahead' : st.now < comm_end_time := hahead
  have hsame : st₁.now = st.now := hbegun.now_eq
  have hpositive : 0 < uint64 (comm_end_time - st₁.now) := by
    rw [uint64, Int.emod_eq_of_lt (by omega) (by omega)]
    omega
  refine ⟨hnoticed, ?_⟩
  rw [if_pos hpositive, int64_of_lt (by omega) hend]
  exact hbegun.schedule hw hlater hnow hahead'.le hend

theorem predictionCallbackForMuse_ok (hnow : 0 ≤ st.now) (hfits : st.Fits .dragonfly (.predict p)) :
    ∃ st', DragonflyTopology.predictionCallbackForMuse p st = some st' ∧
      Widened st st' p (st.commEndTime 300 p) (max · (st.commEndTime 300 p)) := by
  obtain ⟨hend, hbegin, hnotice⟩ := hfits
  have hpos := commEndTime_range st 300 p
  simp only [Kind.bandwidth] at hend hbegin hnotice
  rw [DragonflyTopology.predictionCallbackForMuse]
  generalize st.commEndTime 300 p = comm_end_time at hend hbegin hnotice hpos
  obtain ⟨st₁, hok, hbegun⟩ := @recordBegin_ok st p comm_end_time
    (0 < int32 (p.commBeginTime - st.now)) _ hnow ⟨hpos, hend⟩ hbegin
  rw [hok, Option.bind_eq_bind, Option.bind_some]
  refine recordEnd_ok hbegun hpos fun w hw hlater => ?_
  obtain ⟨hnoticed, hahead⟩ := hnotice w hw hlater
  have hsame : st₁.now = st.now := hbegun.now_eq
  refine ⟨hnoticed, ?_⟩
  rw [int64_of_lt (by omega) hend]
  by_cases hdelay : 0 < int32 (comm_end_time - st.now)
  · obtain ⟨st₂, hok₂, hwidened⟩ := hbegun.schedule hw hlater hnow (hahead.mpr hdelay).le hend
    refine ⟨st₂, ?_, hwidened⟩
    rw [if_pos (hsame.symm ▸ hdelay)]
    exact hok₂
  · -- the window is widened, and nothing is scheduled for a time that is past
    exact ⟨_, if_neg (hsame.symm ▸ hdelay), hbegun.raise hw hlater
      ((Grows.refl st₁).setWindow _ _) rfl fun h => absurd (hahead.mp h) hdelay⟩

theorem predictionCallback_ok (hnow : 0 ≤ st.now) (hfits : st.Fits kind (.predict p)) :
    ∃ st', kind.predictionCallback p st = some st' ∧ Widened st st' p
      (st.commEndTime kind.bandwidth p) (max · (st.commEndTime kind.bandwidth p)) := by
  cases kind with
  | fattree => exact predictionCallbackWithHedera_ok hnow hfits
  | dragonfly => exact predictionCallbackForMuse_ok hnow hfits

/-! ## 4. Runs -/

/-- What holds after the predictions. -/
structure Inv (kind : Kind) (ps : List Prediction) (st : Topology) : Prop where
  now_nonneg : 0 ≤ st.now
  pending : ∀ e ∈ st.events.events, st.now ≤ e.time
  absent : ∀ key, st.batchCommsizeMap.lookup key = none → ∀ p ∈ ps, p.key ≠ key
  hull : ∀ key w, st.batchCommsizeMap.lookup key = some w → st.Hull kind ps key w
  scheduled : ∀ key w, st.batchCommsizeMap.lookup key = some w → st.Scheduled key w

variable {ps : List Prediction}

theorem commEndTime_eq (h : st'.serverCount = st.serverCount) (bandwidth : Int) (p : Prediction) :
    st'.commEndTime bandwidth p = st.commEndTime bandwidth p := by
  rw [Topology.commEndTime, Topology.commEndTime, h]

theorem Topology.Hull.congr {key : Key} (h : st.Hull kind ps key w)
    (hcount : st'.serverCount = st.serverCount) : st'.Hull kind ps key w where
  earliest := h.earliest
  latest := by
    simp only [commEndTime_eq hcount]
    exact h.latest

theorem Topology.Hull.other {key : Key} (h : st.Hull kind ps key w) (hkey : p.key ≠ key) :
    st.Hull kind (p :: ps) key w := by
  have hpredictions : ∀ P : Prediction → Prop,
      (∃ p' ∈ p :: ps, p'.key = key ∧ P p') ↔ ∃ p' ∈ ps, p'.key = key ∧ P p' := fun P => by
    rw [List.exists_mem_cons_iff, or_iff_right fun h => hkey h.1]
  constructor
  · simp only [hpredictions]
    exact h.earliest
  · simp only [hpredictions]
    exact h.latest

theorem hull_first (h : ∀ p' ∈ ps, p'.key ≠ p.key) :
    st.Hull kind (p :: ps) p.key ⟨p.commBeginTime, st.commEndTime kind.bandwidth p⟩ := by
  have hpredictions : ∀ P : Prediction → Prop,
      (∃ p' ∈ p :: ps, p'.key = p.key ∧ P p') ↔ P p := fun P => by
    rw [List.exists_mem_cons_iff, or_iff_left, and_iff_right rfl]
    rintro ⟨p', hp', hkey, -⟩
    exact h p' hp' hkey
  constructor
  · simp only [hpredictions, Set.ofPred_eq_eq_singleton']
    exact isLeast_singleton
  · simp only [hpredictions, Set.ofPred_eq_eq_singleton']
    exact isGreatest_singleton

theorem Topology.Hull.widen (h : st.Hull kind ps p.key w) : st.Hull kind (p :: ps) p.key
      ⟨min w.earliest p.commBeginTime, max w.latest (st.commEndTime kind.bandwidth p)⟩ := by
  have hpredictions : ∀ (f : Prediction → Int), {t | ∃ p' ∈ p :: ps, p'.key = p.key ∧ f p' = t} =
        insert (f p) {t | ∃ p' ∈ ps, p'.key = p.key ∧ f p' = t} := fun f => by
    ext t
    rw [Set.mem_ofPred, List.exists_mem_cons_iff, and_iff_right rfl, Set.mem_insert_iff, eq_comm]
    rfl
  constructor
  · rw [hpredictions, min_comm]
    exact h.earliest.insert _
  · rw [hpredictions, max_comm]
    exact h.latest.insert _

/-- The events of the widened window: those of the old one or new ones. -/
theorem Widened.scheduled {bandwidth : Int} (h : Widened st st' p (st.commEndTime bandwidth p)
    (max · (st.commEndTime bandwidth p))) (hold : ∀ w, st.batchCommsizeMap.lookup p.key = some w →
      st.Scheduled p.key w) {w' : Window} (hw' : st'.batchCommsizeMap.lookup p.key = some w') :
    st'.Scheduled p.key w' := by
  cases hw : st.batchCommsizeMap.lookup p.key with
  | none =>
    obtain ⟨hlookup, hadd, hclear⟩ := h.opened hw
    obtain rfl := Option.some.inj (hlookup.symm.trans hw')
    exact ⟨fun hlt => hadd (h.now_eq ▸ hlt), fun hlt => hclear (h.now_eq ▸ hlt)⟩
  | some w =>
    obtain ⟨hlookup, hadd, hclear⟩ := h.widened w hw
    obtain rfl := Option.some.inj (hlookup.symm.trans hw')
    have hscheduled := hold w hw
    constructor
    · dsimp only
      rw [h.now_eq]
      intro hlt
      rcases lt_or_ge p.commBeginTime w.earliest with hearlier | hearlier
      · rw [min_eq_right hearlier.le] at hlt ⊢
        exact hadd hearlier hlt
      · rw [min_eq_left hearlier] at hlt ⊢
        exact h.events _ (hscheduled.add hlt)
    · dsimp only at hclear ⊢
      rw [h.now_eq]
      intro hlt
      rcases lt_or_ge w.latest (st.commEndTime bandwidth p) with hlater | hlater
      · exact hclear (lt_max_of_lt_right hlater) hlt
      · rw [max_eq_left hlater] at hlt ⊢
        exact h.events _ (hscheduled.clear hlt)

theorem Inv.predict (h : Inv kind ps st) (hwidened : Widened st st' p
    (st.commEndTime kind.bandwidth p) (max · (st.commEndTime kind.bandwidth p))) :
    Inv kind (p :: ps) st' where
  now_nonneg := hwidened.now_eq ▸ h.now_nonneg
  pending e he := by
    rw [hwidened.now_eq]
    exact (hwidened.pending e he).elim (h.pending e) id
  absent key hkey := by
    have hne : key ≠ p.key := by
      rintro rfl
      rcases hwidened.lookup with ⟨-, hsome⟩ | ⟨w, -, hsome⟩
      all_goals
        rw [hkey] at hsome
        cases hsome
    rw [hwidened.other key hne] at hkey
    exact List.forall_mem_cons.mpr ⟨hne.symm, h.absent key hkey⟩
  hull key w hw := by
    by_cases hkey : key = p.key
    · subst hkey
      rcases hwidened.lookup with ⟨hnone, hsome⟩ | ⟨w₀, hw₀, hsome⟩
      · obtain rfl := Option.some.inj (hsome.symm.trans hw)
        exact (hull_first (h.absent _ hnone)).congr hwidened.serverCount_eq
      · obtain rfl := Option.some.inj (hsome.symm.trans hw)
        exact (h.hull _ w₀ hw₀).widen.congr hwidened.serverCount_eq
    · rw [hwidened.other key hkey] at hw
      exact ((h.hull key w hw).other (Ne.symm hkey)).congr hwidened.serverCount_eq
  scheduled key w hw := by
    by_cases hkey : key = p.key
    · subst hkey
      exact hwidened.scheduled (h.scheduled _) hw
    · rw [hwidened.other key hkey] at hw
      have hold := h.scheduled key w hw
      constructor
      · exact fun hlt => hwidened.events _ (hold.add (hwidened.now_eq ▸ hlt))
      · exact fun hlt => hwidened.events _ (hold.clear (hwidened.now_eq ▸ hlt))

theorem Inv.later (h : Inv kind ps st) (hmap : st'.batchCommsizeMap = st.batchCommsizeMap)
    (hcount : st'.serverCount = st.serverCount) (hnow : st.now ≤ st'.now)
    (hpending : ∀ e ∈ st'.events.events, st'.now ≤ e.time)
    (hkept : ∀ e ∈ st.events.events, st'.now < e.time → e ∈ st'.events.events) :
    Inv kind ps st' where
  now_nonneg := h.now_nonneg.trans hnow
  pending := hpending
  absent := hmap ▸ h.absent
  hull key w hw := (h.hull key w (hmap ▸ hw)).congr hcount
  scheduled key w hw := by
    have hold := h.scheduled key w (hmap ▸ hw)
    constructor
    · exact fun hlt => hkept _ (hold.add (hnow.trans_lt hlt)) hlt
    · exact fun hlt => hkept _ (hold.clear (hnow.trans_lt hlt)) hlt

theorem Inv.step (h : Inv kind ps st) {op : Op} (hfits : st.Fits kind op)
    (hstep : st.step kind op = some st') : Inv kind (op.predictions ++ ps) st' := by
  cases op with
  | predict p =>
    obtain ⟨st₁, hok, hwidened⟩ := predictionCallback_ok h.now_nonneg hfits
    obtain rfl := Option.some.inj (hok.symm.trans hstep)
    exact h.predict hwidened
  | next =>
    rw [Topology.step] at hstep
    split at hstep
    · cases hstep
    · next e es hevents =>
      obtain rfl := Option.some.inj hstep
      have hmem : e ∈ st.events.events := hevents ▸ List.mem_cons_self
      refine h.later rfl rfl (h.pending e hmem) (fun x hx => ?_) fun x hx hlt => ?_
      · exact EventQueue.le_of_head hevents (List.mem_of_mem_tail hx)
      · -- what is later than the first event is not the first event
        rw [hevents] at hx
        rcases List.mem_cons.mp hx with rfl | hrest
        · exact absurd hlt (lt_irrefl _)
        · exact EventQueue.tail_events hevents ▸ hrest
  | pass time =>
    rw [Topology.step] at hstep
    split at hstep
    · next hpass =>
      obtain rfl := Option.some.inj hstep
      exact h.later rfl rfl hpass.1 hpass.2.2 fun x hx _ => hx
    · cases hstep

theorem Run.inv {serverCount : Nat}
    (h : Run kind serverCount (fun st op => st.Fits kind op) ps st) : Inv kind ps st := by
  induction h with
  | init =>
    refine ⟨le_refl _, fun e he => absurd he List.not_mem_nil, fun _ _ p hp => absurd hp List.not_mem_nil,
      fun key w hw => ?_, fun key w hw => ?_⟩
    · cases hw
    · cases hw
  | step op _ hfits hstep ih => exact ih.step hfits hstep

end

/-- In a run of predictions that fit, the window of a batch and size is from the least begin to the
greatest end of the predictions for them, and what is to happen at its begin and its end is
scheduled for these times while they lie ahead. No prediction that fits fails. -/
theorem window_is_hull {kind : Kind} {serverCount : Nat} {ps : List Prediction} {st : Topology}
    (h : Run kind serverCount (fun st op => st.Fits kind op) ps st) :
    (∀ p ∈ ps, ∃ w, st.batchCommsizeMap.lookup p.key = some w ∧ st.Hull kind ps p.key w ∧
      st.Scheduled p.key w) ∧
    ∀ p, st.Fits kind (.predict p) → ∃ st', st.step kind (.predict p) = some st' := by
  have hinv := h.inv
  refine ⟨fun p hp => ?_, fun p hfits => ?_⟩
  · cases hw : st.batchCommsizeMap.lookup p.key with
    | none => exact absurd rfl (hinv.absent p.key hw p hp)
    | some w => exact ⟨w, rfl, hinv.hull p.key w hw, hinv.scheduled p.key w hw⟩
  · obtain ⟨st', hok, -⟩ := predictionCallback_ok hinv.now_nonneg hfits
    exact ⟨st', hok⟩

def firstPrediction : Prediction := { batchID := 1, commBeginTime := 2000, commSize := 1000 }

def laterPrediction : Prediction := { batchID := 1, commBeginTime := 3000, commSize := 1000 }

/-- In the fat tree of 16 servers the first prediction opens a window up to 2256 ns, and the second
one moves its end. -/
theorem window_is_hull_two : ∃ st, Run .fattree 16 (fun st op => st.Fits .fattree op)
      [laterPrediction, firstPrediction] st ∧
    st.batchCommsizeMap.lookup (1, 1000) = some ⟨2000, 3256⟩ ∧
    st.Hull .fattree [laterPrediction, firstPrediction] (1, 1000) ⟨2000, 3256⟩ := by
  have hopened : (Topology.step .fattree { serverCount := 16 } (.predict firstPrediction)).map
      (fun st => (st.batchCommsizeMap.lookup (1, 1000), st.serverCount, st.now)) =
        some (some ⟨2000, 2256⟩, 16, 0) := by
    decide +kernel
  have hmoved : ((Topology.step .fattree { serverCount := 16 } (.predict firstPrediction)).bind
      fun st => st.step .fattree (.predict laterPrediction)).map
        (fun st => st.batchCommsizeMap.lookup (1, 1000)) = some (some ⟨2000, 3256⟩) := by
    decide +kernel
  obtain ⟨st₂, hst₂, hlookup₂⟩ := Option.map_eq_some_iff.mp hmoved
  obtain ⟨st₁, hst₁, hstep⟩ := Option.bind_eq_some_iff.mp hst₂
  obtain ⟨st, hst, hproj⟩ := Option.map_eq_some_iff.mp hopened
  obtain rfl := Option.some.inj (hst.symm.trans hst₁)
  obtain ⟨hlookup, hcount, hnow⟩ : _ ∧ _ ∧ _ := by simpa only [Prod.mk.injEq] using hproj
  have hahead : Topology.ahead .fattree { serverCount := 16 } firstPrediction :=
    show (0 : Int) < int64 (2000 - 0) by decide +kernel
  have hfits : Topology.Fits .fattree { serverCount := 16 } (.predict firstPrediction) :=
    ⟨by decide, fun _ => ⟨fun _ => by decide, fun _ => hahead, fun _ _ => hahead⟩,
      fun w hw => by cases hw⟩
  have hend : st.commEndTime 1000 laterPrediction = 3256 := by
    rw [Topology.commEndTime, hcount]
    decide
  have hfits' : st.Fits .fattree (.predict laterPrediction) := by
    simp only [Topology.Fits, Kind.bandwidth, hend]
    refine ⟨by decide, fun hearlier => absurd (hearlier _ hlookup) (by decide), fun w hw _ => ?_⟩
    obtain rfl := Option.some.inj (hlookup.symm.trans hw)
    exact ⟨by decide, show st.now < 3256 from hnow ▸ (by decide)⟩
  have hrun := Run.step _ (Run.step _ Run.init hfits hst₁) hfits' hstep
  obtain ⟨w, hw, hhull, -⟩ := (window_is_hull hrun).1 _ List.mem_cons_self
  obtain rfl := Option.some.inj (hlookup₂.symm.trans hw)
  exact ⟨st₂, hrun, hlookup₂, hhull⟩

/-- The end of the second prediction, 2^31 ns, is negative as an `int`. -/
theorem end_not_recorded : ¬∀ (ps : List Prediction) (st : Topology),
    Run .fattree 16 (fun _ _ => True) ps st → ∀ p ∈ ps, ∃ w,
      st.batchCommsizeMap.lookup p.key = some w ∧ st.Hull .fattree ps p.key w ∧
      st.Scheduled p.key w := by
  intro hall
  have hlookup : ((Topology.step .fattree { serverCount := 16 }
      (.predict { batchID := 1, commBeginTime := 1000, commSize := 0 })).bind fun st =>
        st.step .fattree (.predict { batchID := 1, commBeginTime := 2147483648, commSize := 0 })).map
      (fun st => (st.batchCommsizeMap.lookup (1, 0)).map Window.latest) = some (some 1000) := by
    decide +kernel
  obtain ⟨st₂, hst₂, hlatest⟩ := Option.map_eq_some_iff.mp hlookup
  obtain ⟨st₁, hst₁, hstep⟩ := Option.bind_eq_some_iff.mp hst₂
  have hrun : Run .fattree 16 (fun _ _ => True) _ st₂ :=
    Run.step _ (Run.step _ Run.init trivial hst₁) trivial hstep
  obtain ⟨w, hw, hhull, -⟩ := hall _ _ hrun _ List.mem_cons_self
  obtain ⟨w', hw', hlatest'⟩ := Option.map_eq_some_iff.mp hlatest
  obtain rfl := Option.some.inj (hw'.symm.trans hw)
  have hend : st₂.commEndTime 1000 { batchID := 1, commBeginTime := 2147483648, commSize := 0 } =
      2147483648 := by simp [Topology.commEndTime, uint64]
  have hle : st₂.commEndTime 1000 _ ≤ w'.latest := hhull.latest.2 ⟨_, List.mem_cons_self, rfl, rfl⟩
  rw [hlatest', hend] at hle
  exact absurd hle (by decide)

end MoeJit.PredictionWindows
