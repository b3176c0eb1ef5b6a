import MoeJit.Lib.GuardedRun
import Mathlib.Data.List.AList

/-!
# Predictions of `NetJITApplication`

The application reports each prediction some batches ahead, by an event that is
scheduled anew at every batch with the measured pace. `pending_predictions` holds the events,
by the batch that is predicted.

`bookkeeping_iff`: the scheduled events have one entry each and no two predict the same batch,
all along a run, if and only if no prediction comes due for a batch whose entry can
still be scheduled. The entry would be overwritten and its event never be found again
(`overwritten_event`).
-/

namespace MoeJit.NetJIT

open List

/-! ## 1. The application -/

/-- Durations and times are nanoseconds. -/
structure NetJITPrediction where
  batch : Int
  advanced_batch : Int
  size : Int
  waited_time : Int
  reporting_time : Int
  waiting_time : Int
  expected_time : Int
  deriving DecidableEq

/-- The batch that is predicted. -/
def NetJITPrediction.target (p : NetJITPrediction) : Int := p.batch + p.advanced_batch

/-- A scheduled call of `predict`. -/
structure Event where
  uid : Nat
  time : Int
  prediction : NetJITPrediction
  deriving DecidableEq

/-- The time and what the application shares with the one that computes the batches. -/
structure Clock where
  now : Int
  current_batch : Int
  waited_time : Int
  time_offset : Int

/-- A call of the callback: the batch, its time and its size. -/
structure Report where
  rank : Nat
  batch : Int
  time : Int
  size : Int
  deriving DecidableEq

/-- The application with its events in the simulator: those that are scheduled, not
cancelled and not run. -/
structure NetJITApplication where
  running : Bool
  rank : Nat
  predictions : List NetJITPrediction
  pending_predictions : AList fun _ : Int => Nat × NetJITPrediction
  clock : Clock
  events : List Event
  uid : Nat
  reports : List Report

/-- Integer division truncates. -/
def calculateDelay (c : Clock) (prediction : NetJITPrediction) : Int :=
  let correction :=
    if c.current_batch > 1 then
      (c.waited_time * (prediction.batch - 1)).tdiv (c.current_batch - 1)
    else prediction.waited_time
  prediction.reporting_time - prediction.waited_time + correction + c.time_offset - c.now

namespace NetJITApplication

def cancel (s : NetJITApplication) (eventId : Nat) : NetJITApplication :=
  { s with events := s.events.filter fun e => e.uid ≠ eventId }

/-- `Schedule`, with the entry that gets the event. -/
def enter (s : NetJITApplication) (target delay : Int) (prediction : NetJITPrediction) :
    NetJITApplication :=
  { s with
    events := s.events ++ [⟨s.uid, s.clock.now + delay, prediction⟩]
    uid := s.uid + 1
    pending_predictions := s.pending_predictions.insert target (s.uid, prediction) }

/-- The body of the loop over the entries. -/
def retime (s : NetJITApplication) (target : Int) : NetJITApplication :=
  match s.pending_predictions.lookup target with
  | none => s
  | some (eventId, prediction) =>
    let s := s.cancel eventId
    let delay := calculateDelay s.clock prediction
    if delay < 0 then s else s.enter target delay prediction

/-- The loop over the predictions up to the current batch. An entry for the same batch is
overwritten. -/
def takeDue : List NetJITPrediction → NetJITApplication → NetJITApplication
  | [], s => s
  | prediction :: predictions, s =>
    if s.running && prediction.batch ≤ s.clock.current_batch then
      let s := { s with predictions := predictions }
      let delay := calculateDelay s.clock prediction
      if delay < 0 then takeDue predictions s
      else takeDue predictions (s.enter prediction.target delay prediction)
    else s

/-- The entries are walked in some order; only the numbers of the events depend on it. -/
def onBatch (s : NetJITApplication) : NetJITApplication :=
  let s := s.pending_predictions.keys.foldl retime s
  takeDue s.predictions s

def predict (s : NetJITApplication) (prediction : NetJITPrediction) : NetJITApplication :=
  let s := { s with pending_predictions := s.pending_predictions.erase prediction.target }
  if s.clock.current_batch ≤ 1 then s
  else
    let correction := ((prediction.advanced_batch + prediction.batch - 1) *
      s.clock.waited_time).tdiv (s.clock.current_batch - 1)
    let corrected := prediction.expected_time - prediction.waited_time -
      prediction.waiting_time + correction + s.clock.time_offset
    { s with reports := s.reports ++ [⟨s.rank, prediction.target, corrected, prediction.size⟩] }

/-- What can happen: the application is started or stopped, the shared values change, time
passes up to the next event, a batch begins, or an event is run that is next. -/
inductive Action
  | start
  | stop
  | update (current_batch waited_time time_offset : Int)
  | advance (now : Int)
  | onBatch
  | run (uid : Nat)

def step (s : NetJITApplication) : Action → NetJITApplication
  | .start => { s with running := true }
  | .stop => { s with running := false }
  | .update current_batch waited_time time_offset =>
    { s with clock := ⟨s.clock.now, current_batch, waited_time, time_offset⟩ }
  | .advance now =>
    if s.clock.now ≤ now ∧ ∀ e ∈ s.events, now ≤ e.time then
      { s with clock := { s.clock with now := now } }
    else s
  | .onBatch => s.onBatch
  | .run uid =>
    match s.events.find? fun e => e.uid = uid with
    | none => s
    | some e =>
      if ∀ e' ∈ s.events, e.time ≤ e'.time then
        predict { s.cancel e.uid with clock := { s.clock with now := e.time } } e.prediction
      else s

/-- Before the first batch. -/
def initial (running : Bool) (rank : Nat) (predictions : List NetJITPrediction) (clock : Clock) :
    NetJITApplication where
  running := running
  rank := rank
  predictions := predictions
  pending_predictions := ∅
  clock := clock
  events := []
  uid := 0
  reports := []

end NetJITApplication

open NetJITApplication

/-! ## 2. Statement -/

def Event.target (e : Event) : Int := e.prediction.target

/-- Every scheduled event has exactly one entry that holds it, and at most one event is
scheduled for a batch. -/
structure Bookkeeping (s : NetJITApplication) : Prop where
  entry : ∀ e ∈ s.events, ∃! target,
    (s.pending_predictions.lookup target).map Prod.fst = some e.uid
  unique : (s.events.map Event.target).Nodup

/-- Every scheduled event has the time that is calculated now. -/
def Retimed (s : NetJITApplication) : Prop :=
  ∀ e ∈ s.events, e.time = s.clock.now + calculateDelay s.clock e.prediction

/-- Those of the predictions that `takeDue` schedules. -/
def due (s : NetJITApplication) (predictions : List NetJITPrediction) : List NetJITPrediction :=
  if s.running then
    (predictions.takeWhile fun p => p.batch ≤ s.clock.current_batch).filter fun p =>
      0 ≤ calculateDelay s.clock p
  else []

/-- At a batch the predictions that come due are for different batches, and none for a
batch whose entry can be scheduled. -/
def Careful (s : NetJITApplication) : Action → Prop
  | .onBatch => ((due s s.predictions).map NetJITPrediction.target).Nodup ∧
    ∀ p ∈ due s s.predictions, ∀ entry ∈ s.pending_predictions.lookup p.target,
      calculateDelay s.clock entry.2 < 0
  | _ => True

/-! ## 3. The invariant -/

/-- The events have their entries, and the entries are where they belong. -/
structure Inv (s : NetJITApplication) : Prop where
  fresh : ∀ e ∈ s.events, e.uid < s.uid
  nodup : (s.events.map Event.uid).Nodup
  entry : ∀ e ∈ s.events, s.pending_predictions.lookup e.target = some (e.uid, e.prediction)
  key : ∀ k id p, s.pending_predictions.lookup k = some (id, p) → p.target = k
  older : ∀ k id p, s.pending_predictions.lookup k = some (id, p) → id < s.uid
  distinct : ∀ k k' id p p', s.pending_predictions.lookup k = some (id, p) →
    s.pending_predictions.lookup k' = some (id, p') → k = k'

theorem Inv.initial (running : Bool) (rank : Nat) (predictions : List NetJITPrediction)
    (clock : Clock) : Inv (initial running rank predictions clock) where
  fresh := fun _ h => absurd h not_mem_nil
  nodup := nodup_nil
  entry := fun _ h => absurd h not_mem_nil
  key := fun k id p h => by
    rw [NetJITApplication.initial, AList.lookup_empty] at h
    cases h
  older := fun k id p h => by
    rw [NetJITApplication.initial, AList.lookup_empty] at h
    cases h
  distinct := fun k k' id p p' h => by
    rw [NetJITApplication.initial, AList.lookup_empty] at h
    cases h

variable {s : NetJITApplication} {e : Event}

theorem Inv.eq_of_target (hs : Inv s) {e' : Event} (he : e ∈ s.events) (he' : e' ∈ s.events)
    (h : e.target = e'.target) : e = e' := by
  have hentry := hs.entry e he
  rw [h, hs.entry e' he'] at hentry
  have huid : e'.uid = e.uid := congrArg Prod.fst (Option.some.inj hentry)
  exact inj_on_of_nodup_map hs.nodup he he' huid.symm

theorem Inv.bookkeeping (hs : Inv s) : Bookkeeping s where
  entry := by
    intro e he
    have hentry := hs.entry e he
    refine ⟨e.target, congrArg (Option.map Prod.fst) hentry, fun k hk => ?_⟩
    obtain ⟨⟨id, p⟩, hlook, hid⟩ := Option.map_eq_some_iff.mp hk
    obtain rfl : id = e.uid := hid
    exact hs.distinct k e.target e.uid p e.prediction hlook hentry
  unique := (hs.nodup.of_map _).map_on fun _ he _ he' => hs.eq_of_target he he'

/-- The entries and the numbers are as before, and no event is new. -/
theorem Inv.of_sublist {s' : NetJITApplication} (hs : Inv s)
    (hevents : List.Sublist s'.events s.events)
    (hpending : s'.pending_predictions = s.pending_predictions) (huid : s'.uid = s.uid) :
    Inv s' where
  fresh := fun e he => huid ▸ hs.fresh e (hevents.subset he)
  nodup := hs.nodup.sublist (hevents.map _)
  entry := fun e he => hpending ▸ hs.entry e (hevents.subset he)
  key := by rw [hpending]; exact hs.key
  older := by rw [hpending, huid]; exact hs.older
  distinct := by rw [hpending]; exact hs.distinct

theorem Inv.cancel (hs : Inv s) (eventId : Nat) : Inv (s.cancel eventId) :=
  hs.of_sublist filter_sublist rfl rfl

theorem Inv.enter (hs : Inv s) {target delay : Int} {p : NetJITPrediction}
    (htarget : p.target = target) (hfree : ∀ e ∈ s.events, e.target ≠ target) :
    Inv (s.enter target delay p) := by
  have hlook (k id q) (h : (s.enter target delay p).pending_predictions.lookup k = some (id, q)) :
      (k = target ∧ id = s.uid ∧ q = p) ∨
        (k ≠ target ∧ s.pending_predictions.lookup k = some (id, q)) := by
    cases decEq k target with
    | isTrue heq =>
      rw [heq, NetJITApplication.enter, AList.lookup_insert, Option.some.injEq, Prod.mk.injEq] at h
      exact .inl ⟨heq, h.1.symm, h.2.symm⟩
    | isFalse hne =>
      rw [NetJITApplication.enter, AList.lookup_insert_ne hne] at h
      exact .inr ⟨hne, h⟩
  constructor
  case fresh =>
    intro e he
    show e.uid < s.uid + 1
    cases mem_append.mp he with
    | inl he => exact Nat.lt_succ_of_lt (hs.fresh e he)
    | inr he =>
      cases mem_singleton.mp he
      exact Nat.lt_succ_self _
  case nodup =>
    show ((s.events ++ [_]).map Event.uid).Nodup
    rw [map_append, nodup_append]
    refine ⟨hs.nodup, nodup_singleton _, fun id hid id' hid' heq => ?_⟩
    obtain ⟨e, he, rfl⟩ := mem_map.mp hid
    have hfresh := hs.fresh e he
    rw [heq, mem_singleton.mp hid'] at hfresh
    exact lt_irrefl _ hfresh
  case entry =>
    intro e he
    cases mem_append.mp he with
    | inl he =>
      rw [NetJITApplication.enter, AList.lookup_insert_ne (hfree e he)]
      exact hs.entry e he
    | inr he =>
      cases mem_singleton.mp he
      show (s.pending_predictions.insert target (s.uid, p)).lookup p.target = some (s.uid, p)
      rw [htarget, AList.lookup_insert]
  case key =>
    intro k id q h
    rcases hlook k id q h with ⟨rfl, -, rfl⟩ | ⟨-, h⟩
    · exact htarget
    · exact hs.key k id q h
  case older =>
    intro k id q h
    show id < s.uid + 1
    rcases hlook k id q h with ⟨-, rfl, -⟩ | ⟨-, h⟩
    · exact Nat.lt_succ_self _
    · exact Nat.lt_succ_of_lt (hs.older k id q h)
  case distinct =>
    intro k k' id q q' h h'
    rcases hlook k id q h with ⟨rfl, rfl, -⟩ | ⟨-, h⟩
    · rcases hlook k' _ q' h' with ⟨rfl, -, -⟩ | ⟨-, h'⟩
      · rfl
      · exact absurd (hs.older k' _ q' h') (lt_irrefl _)
    · rcases hlook k' _ q' h' with ⟨-, rfl, -⟩ | ⟨-, h'⟩
      · exact absurd (hs.older k _ q h) (lt_irrefl _)
      · exact hs.distinct k k' id q q' h h'

/-! ## 4. A batch -/

/-- The loop over the entries, with those that remain. -/
structure Retiming (s₀ s : NetJITApplication) (remaining : List Int) : Prop where
  inv : Inv s
  clock : s.clock = s₀.clock
  running : s.running = s₀.running
  predictions : s.predictions = s₀.predictions
  same : ∀ k, (s.pending_predictions.lookup k).map Prod.snd =
    (s₀.pending_predictions.lookup k).map Prod.snd
  timed : ∀ e ∈ s.events, e.target ∉ remaining →
    e.time = s.clock.now + calculateDelay s.clock e.prediction ∧
      0 ≤ calculateDelay s.clock e.prediction
  alive : ∀ k id p, k ∉ remaining → s.pending_predictions.lookup k = some (id, p) →
    0 ≤ calculateDelay s.clock p → ∃ e ∈ s.events, e.uid = id

theorem Inv.mem_cancel (hs : Inv s) {k : Int} {id : Nat} {p : NetJITPrediction}
    (hlook : s.pending_predictions.lookup k = some (id, p)) :
    e ∈ (s.cancel id).events ↔ e ∈ s.events ∧ e.target ≠ k := by
  show e ∈ s.events.filter (fun e => e.uid ≠ id) ↔ _
  rw [mem_filter, decide_eq_true_iff]
  refine and_congr_right fun he => not_congr ⟨fun huid => ?_, fun htarget => ?_⟩
  · exact hs.distinct e.target k id e.prediction p (huid ▸ hs.entry e he) hlook
  · have hentry := hs.entry e he
    rw [htarget, hlook] at hentry
    exact (congrArg Prod.fst (Option.some.inj hentry)).symm

theorem Retiming.step {s₀ s : NetJITApplication} {k : Int} {remaining : List Int}
    (h : Retiming s₀ s (k :: remaining)) : Retiming s₀ (s.retime k) remaining := by
  unfold retime
  cases hlook : s.pending_predictions.lookup k with
  | none =>
    refine { h with timed := fun e he hnot => ?_, alive := fun k' id p hnot hlook' hdelay => ?_ }
    · refine h.timed e he (not_mem_cons_of_ne_of_not_mem (fun heq => ?_) hnot)
      have hentry := h.inv.entry e he
      rw [heq, hlook] at hentry
      cases hentry
    · refine h.alive k' id p (not_mem_cons_of_ne_of_not_mem (fun heq => ?_) hnot) hlook' hdelay
      rw [heq, hlook] at hlook'
      cases hlook'
  | some entry =>
    obtain ⟨id, p⟩ := entry
    have hkept (e : Event) (he : e ∈ (s.cancel id).events) (hnot : e.target ∉ remaining) :
        e.time = s.clock.now + calculateDelay s.clock e.prediction ∧
          0 ≤ calculateDelay s.clock e.prediction := by
      obtain ⟨hmem, hne⟩ := (h.inv.mem_cancel hlook).mp he
      exact h.timed e hmem (not_mem_cons_of_ne_of_not_mem hne hnot)
    have halive (k' : Int) (id' : Nat) (p' : NetJITPrediction) (hne : k' ≠ k)
        (hnot : k' ∉ remaining) (hlook' : s.pending_predictions.lookup k' = some (id', p'))
        (hdelay : 0 ≤ calculateDelay s.clock p') : ∃ e ∈ (s.cancel id).events, e.uid = id' := by
      obtain ⟨e, he, huid⟩ :=
        h.alive k' id' p' (not_mem_cons_of_ne_of_not_mem hne hnot) hlook' hdelay
      refine ⟨e, (h.inv.mem_cancel hlook).mpr ⟨he, fun htarget => ?_⟩, huid⟩
      have hentry := h.inv.entry e he
      rw [huid] at hentry
      exact hne ((h.inv.distinct _ _ _ _ _ hentry hlook').symm.trans htarget)
    show Retiming s₀ (if calculateDelay s.clock p < 0 then s.cancel id
      else (s.cancel id).enter k (calculateDelay s.clock p) p) remaining
    split
    · next hneg =>
      refine { h with inv := h.inv.cancel id, timed := hkept, alive := ?_ }
      intro k' id' p' hnot hlook' hdelay
      refine halive k' id' p' (fun heq => ?_) hnot hlook' hdelay
      rw [heq, show (s.cancel id).pending_predictions.lookup k = _ from hlook] at hlook'
      cases hlook'
      exact absurd hdelay (Int.not_le.mpr hneg)
    · next hnot_neg =>
      have hinv : Inv ((s.cancel id).enter k (calculateDelay s.clock p) p) :=
        (h.inv.cancel id).enter (h.inv.key k id p hlook) fun e he =>
          ((h.inv.mem_cancel hlook).mp he).2
      refine { h with inv := hinv, same := ?_, timed := ?_, alive := ?_ }
      · intro k'
        rw [← h.same k']
        show ((s.pending_predictions.insert k (s.uid, p)).lookup k').map Prod.snd = _
        cases decEq k' k with
        | isTrue heq =>
          rw [heq, AList.lookup_insert, hlook]
          rfl
        | isFalse hne => rw [AList.lookup_insert_ne hne]
      · intro e he hnot
        cases mem_append.mp he with
        | inl he => exact hkept e he hnot
        | inr he =>
          cases mem_singleton.mp he
          exact ⟨rfl, Int.not_lt.mp hnot_neg⟩
      · intro k' id' p' hnot hlook' hdelay
        cases decEq k' k with
        | isTrue heq =>
          subst heq
          have hnew : (s.uid, p) = (id', p') :=
            Option.some.inj ((AList.lookup_insert s.pending_predictions).symm.trans hlook')
          refine ⟨_, mem_append_right _ mem_cons_self, ?_⟩
          exact congrArg Prod.fst hnew
        | isFalse hne =>
          obtain ⟨e, he, huid⟩ := halive k' id' p' hne hnot
            ((AList.lookup_insert_ne hne).symm.trans hlook') hdelay
          exact ⟨e, mem_append_left _ he, huid⟩

/-- All entries walked: every event has its new time, and every entry that can be
scheduled has an event. -/
theorem Retiming.finish {s₀ s : NetJITApplication} {remaining : List Int}
    (h : Retiming s₀ s remaining) : Retiming s₀ (remaining.foldl retime s) [] := by
  induction remaining generalizing s with
  | nil => exact h
  | cons k remaining ih => exact ih h.step

theorem Inv.retiming (hs : Inv s) : Retiming s (s.pending_predictions.keys.foldl retime s) [] := by
  refine Retiming.finish ⟨hs, rfl, rfl, rfl, fun _ => rfl, fun e he hnot => ?_,
    fun k id p hnot hlook _ => ?_⟩
  · exact absurd (AList.mem_keys.mp (AList.lookup_isSome.mp (by rw [hs.entry e he]; rfl))) hnot
  · exact absurd (AList.mem_keys.mp (AList.lookup_isSome.mp (by rw [hlook]; rfl))) hnot

theorem due_cons (s : NetJITApplication) (p : NetJITPrediction)
    (predictions : List NetJITPrediction) :
    due s (p :: predictions) = if s.running && p.batch ≤ s.clock.current_batch then
        if calculateDelay s.clock p < 0 then due s predictions else p :: due s predictions
      else [] := by
  unfold due
  cases s.running with
  | false => rfl
  | true =>
    rw [if_pos rfl, if_pos rfl, takeWhile_cons, Bool.true_and]
    cases hbatch : decide (p.batch ≤ s.clock.current_batch) with
    | false => rfl
    | true =>
      rw [if_pos rfl, if_pos rfl, filter_cons]
      cases Int.decLt (calculateDelay s.clock p) 0 with
      | isTrue hneg => rw [if_pos hneg, if_neg (by simpa using hneg)]
      | isFalse hnot => rw [if_neg hnot, if_pos (by simpa using hnot)]

theorem takeDue_cons (s : NetJITApplication) (p : NetJITPrediction)
    (predictions : List NetJITPrediction) :
    takeDue (p :: predictions) s = if s.running && p.batch ≤ s.clock.current_batch then
        if calculateDelay s.clock p < 0 then takeDue predictions { s with predictions }
        else takeDue predictions
          (({ s with predictions } : NetJITApplication).enter p.target (calculateDelay s.clock p) p)
      else s := rfl

theorem map_target_takeDue (predictions : List NetJITPrediction) (s : NetJITApplication) :
    (takeDue predictions s).events.map Event.target =
      s.events.map Event.target ++ (due s predictions).map NetJITPrediction.target := by
  induction predictions generalizing s with
  | nil =>
    have hnil : due s [] = [] := by
      unfold due
      cases s.running with
      | false => rfl
      | true => rfl
    rw [hnil, map_nil, append_nil]
    rfl
  | cons p predictions ih =>
    rw [takeDue_cons, due_cons]
    split
    · split
      · exact ih _
      · rw [ih, map_cons]
        show (s.events ++ [_]).map Event.target ++ _ = _
        rw [map_append, append_assoc]
        rfl
    · rw [map_nil, append_nil]

theorem retimed_takeDue (predictions : List NetJITPrediction) (h : Retimed s) :
    Retimed (takeDue predictions s) := by
  induction predictions generalizing s with
  | nil => exact h
  | cons p predictions ih =>
    rw [takeDue_cons]
    split
    · split
      · exact ih h
      · refine ih fun e he => ?_
        cases mem_append.mp he with
        | inl he => exact h e he
        | inr he =>
          cases mem_singleton.mp he
          rfl
    · exact h

theorem Inv.takeDue {predictions : List NetJITPrediction} (hs : Inv s)
    (hdue : (s.events.map Event.target ++
      (due s predictions).map NetJITPrediction.target).Nodup) : Inv (takeDue predictions s) := by
  induction predictions generalizing s with
  | nil => exact hs
  | cons p predictions ih =>
    rw [takeDue_cons]
    rw [due_cons] at hdue
    split at hdue
    · next htaken =>
      rw [if_pos htaken]
      split at hdue
      · next hneg =>
        rw [if_pos hneg]
        exact ih (hs.of_sublist (List.Sublist.refl _) rfl rfl) hdue
      · next hnot =>
        rw [if_neg hnot]
        rw [map_cons] at hdue
        have hset : Inv { s with predictions } := hs.of_sublist (List.Sublist.refl _) rfl rfl
        refine ih (hset.enter rfl fun e he heq => ?_) ?_
        · have hdisj := nodup_append.mp hdue
          exact hdisj.2.2 _ (mem_map_of_mem he) _ mem_cons_self heq
        · show ((s.events ++ [_]).map Event.target ++ _).Nodup
          rw [map_append, append_assoc]
          exact hdue
    · next hnot =>
      rw [if_neg hnot]
      exact hs

/-- A careful batch is one after which no two events are for the same batch. -/
theorem careful_iff (hs : Inv s) :
    Careful s .onBatch ↔ ((onBatch s).events.map Event.target).Nodup := by
  have hr := hs.retiming
  have hdue (l : List NetJITPrediction) :
      due (s.pending_predictions.keys.foldl retime s) l = due s l := by
    unfold due
    rw [hr.running, hr.clock]
  unfold onBatch Careful
  rw [map_target_takeDue, hr.predictions, hdue]
  constructor
  · rintro ⟨hnodup, hentry⟩
    refine nodup_append.mpr ⟨hr.inv.bookkeeping.unique, hnodup, ?_⟩
    rintro _ hevent _ hprediction rfl
    obtain ⟨p, hp, rfl⟩ := mem_map.mp hprediction
    obtain ⟨e, he, htarget⟩ := mem_map.mp hevent
    have hsame := hr.same p.target
    rw [← htarget, hr.inv.entry e he] at hsame
    obtain ⟨entry, hlook, heq⟩ := Option.map_eq_some_iff.mp hsame.symm
    have hneg := hentry p hp entry (htarget ▸ hlook)
    have hpos := (hr.timed e he not_mem_nil).2
    rw [hr.clock, ← show entry.2 = e.prediction from heq] at hpos
    exact absurd hneg (Int.not_lt.mpr hpos)
  · intro hnodup
    obtain ⟨-, hnodup, hdisjoint⟩ := nodup_append.mp hnodup
    refine ⟨hnodup, fun p hp entry hlook => ?_⟩
    by_contra hpos
    have hsame := hr.same p.target
    rw [Option.mem_def.mp hlook] at hsame
    obtain ⟨⟨id, q⟩, hlook', heq⟩ := Option.map_eq_some_iff.mp hsame
    obtain rfl : q = entry.2 := heq
    obtain ⟨e, he, huid⟩ := hr.alive p.target id _ not_mem_nil hlook' (by
      rw [hr.clock]
      exact Int.not_lt.mp hpos)
    have htarget : e.target = p.target :=
      hr.inv.distinct _ _ _ _ _ (huid ▸ hr.inv.entry e he) hlook'
    exact hdisjoint _ (mem_map_of_mem he) _ (mem_map_of_mem hp) htarget

theorem Inv.onBatch (hs : Inv s) (hcareful : Careful s .onBatch) : Inv (onBatch s) := by
  refine hs.retiming.inv.takeDue ?_
  rw [← map_target_takeDue]
  exact (careful_iff hs).mp hcareful

theorem Inv.retimed (hs : Inv s) : Retimed (NetJITApplication.onBatch s) :=
  retimed_takeDue _ fun e he => (hs.retiming.timed e he not_mem_nil).1

/-! ## 5. Runs -/

theorem Inv.predict (hs : Inv s) (he : e ∈ s.events) (clock : Clock) :
    Inv (predict { s.cancel e.uid with clock } e.prediction) := by
  have hlook := hs.entry e he
  have herase : Inv { s.cancel e.uid with
      clock, pending_predictions := s.pending_predictions.erase e.target } := by
    have hother (k id p) (h : (s.pending_predictions.erase e.target).lookup k = some (id, p)) :
        s.pending_predictions.lookup k = some (id, p) := by
      cases decEq k e.target with
      | isTrue heq =>
        rw [heq, AList.lookup_erase] at h
        cases h
      | isFalse hne => rwa [AList.lookup_erase_ne hne] at h
    constructor
    case fresh => exact (hs.cancel e.uid).fresh
    case nodup => exact (hs.cancel e.uid).nodup
    case entry =>
      intro e' he'
      obtain ⟨hmem, hne⟩ := (hs.mem_cancel hlook).mp he'
      exact (AList.lookup_erase_ne hne).trans (hs.entry e' hmem)
    case key => exact fun k id p h => hs.key k id p (hother k id p h)
    case older => exact fun k id p h => hs.older k id p (hother k id p h)
    case distinct =>
      exact fun k k' id p p' h h' => hs.distinct k k' id p p' (hother k id p h) (hother k' id p' h')
  show Inv (if clock.current_batch ≤ 1 then _ else _)
  split
  · exact herase
  · exact herase.of_sublist (List.Sublist.refl _) rfl rfl

theorem Inv.step {s : NetJITApplication} (hs : Inv s) {a : Action} (hcareful : Careful s a) :
    Inv (s.step a) := by
  cases a with
  | start | stop | update _ _ _ => exact hs.of_sublist (List.Sublist.refl _) rfl rfl
  | advance now =>
    show Inv (if s.clock.now ≤ now ∧ ∀ e ∈ s.events, now ≤ e.time then _ else s)
    split
    · exact hs.of_sublist (List.Sublist.refl _) rfl rfl
    · exact hs
  | onBatch => exact hs.onBatch hcareful
  | run uid =>
    show Inv (match s.events.find? fun e => e.uid = uid with
      | none => s
      | some e => if ∀ e' ∈ s.events, e.time ≤ e'.time then _ else s)
    cases hfind : s.events.find? fun e => e.uid = uid with
    | none => exact hs
    | some e =>
      show Inv (if ∀ e' ∈ s.events, e.time ≤ e'.time then _ else s)
      split
      · exact hs.predict (mem_of_find?_eq_some hfind) _
      · exact hs

/-- The books are right and the events have their new times after every batch, all along a run, if
and only if every batch is a careful one. -/
theorem bookkeeping_iff (running : Bool) (rank : Nat) (predictions : List NetJITPrediction)
    (clock : Clock) (actions : List Action) :
    (∀ pre, pre <+: actions → Bookkeeping (pre.foldl step (initial running rank predictions clock)) ∧
      (pre.getLast? = some .onBatch →
        Retimed (pre.foldl step (initial running rank predictions clock)))) ↔
      Guarded step Careful (initial running rank predictions clock) actions := by
  have hstep : ∀ s a, Inv s → Careful s a → Inv (step s a) :=
    fun _ _ hs hcareful => Inv.step hs hcareful
  have hbad : ∀ s a, Inv s → ¬Careful s a → ¬Bookkeeping (step s a) := by
    intro s a hs hnot hbooks
    cases a with
    | onBatch => exact hnot ((careful_iff hs).mpr hbooks.unique)
    | _ => exact hnot trivial
  have hbooks := forall_prefix_iff_guarded hstep (fun _ => Inv.bookkeeping) hbad
    (Inv.initial running rank predictions clock) actions
  refine ⟨fun h => hbooks.mp fun pre hpre => (h pre hpre).1, fun h pre hpre => ?_⟩
  refine ⟨hbooks.mpr h pre hpre, fun hlast => ?_⟩
  obtain ⟨rest, rfl⟩ := hpre
  obtain ⟨pre', rfl⟩ := List.getLast?_eq_some_iff.mp hlast
  have hpre := (guarded_append.mp (guarded_append.mp h).1).1
  rw [List.foldl_append]
  exact (hpre.inv_foldl hstep (Inv.initial running rank predictions clock)).retimed

/-- Two predictions for the third batch, one of them two batches ahead. -/
def twice : List NetJITPrediction :=
  [⟨1, 2, 8, 0, 100, 0, 200⟩, ⟨2, 1, 8, 0, 100, 0, 200⟩]

/-- At the second batch the event of the first prediction is forgotten. -/
theorem overwritten_event :
    ¬Bookkeeping ([.onBatch, .update 2 50 0, .onBatch].foldl step
      (initial true 0 twice ⟨0, 1, 50, 0⟩)) := by
  intro h
  exact absurd h.unique (by decide)

end MoeJit.NetJIT
