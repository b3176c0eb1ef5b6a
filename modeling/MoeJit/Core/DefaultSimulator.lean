import MoeJit.Core.Scheduler

/-!
# The simulator

`DefaultSimulatorImpl` numbers the events it schedules and runs them in the order of their keys,
with any scheduler that meets the contract of `Serves`. Whether an event is expired is decided by
comparing its key with that of the current event.

The numbers have 32 bits. As long as none is handed out twice and no time is past the last one
(`Steady`), events run in the order of time and of scheduling, each that is not cancelled once, and
an event is expired when it is not pending or cancelled (`execution_of_run`). When the numbers
begin again, an event that is pending is taken for expired and overtakes an earlier one
(`uid_begins_again`).

Events of other threads are not part of the model.
-/

namespace MoeJit.Simulator

open Scheduler List
open BitVec (lt_def lt_trans ne_of_lt ofNat)

/-! ## 1. Model -/

/-- `impl` is the address of the implementation, if there is one. -/
structure EventId where
  impl : Option Nat
  ts : BitVec 64
  context : BitVec 32
  uid : BitVec 32
  deriving DecidableEq

namespace EventId

def invalid : BitVec 32 := 0

def destroy : BitVec 32 := 2

def valid : BitVec 32 := 4

/-- The id of a scheduled event. -/
def of (ev : Event) : EventId := ⟨some ev.impl, ev.key.ts, ev.key.context, ev.key.uid⟩

end EventId

/-- `cancelled` has the implementations whose `m_cancel` is set. -/
structure DefaultSimulatorImpl (σ : Type) where
  events : σ
  destroyEvents : List EventId
  stop : Bool
  uid : BitVec 32
  currentUid : BitVec 32
  currentTs : BitVec 64
  currentContext : BitVec 32
  eventCount : BitVec 64
  unscheduledEvents : Int
  cancelled : List Nat
  deriving DecidableEq

namespace DefaultSimulatorImpl

variable {σ : Type}

def initial (events : σ) : DefaultSimulatorImpl σ where
  events := events
  destroyEvents := []
  stop := false
  uid := EventId.valid
  currentUid := EventId.invalid
  currentTs := 0
  currentContext := 0xffffffff
  eventCount := 0
  unscheduledEvents := 0
  cancelled := []

section Model

variable (perform : σ → Operation → Except Failure (σ × Result)) (s : DefaultSimulatorImpl σ)

/-- The event that is inserted. -/
def event (context : BitVec 32) (delay : BitVec 64) (impl : Nat) : Event :=
  ⟨impl, ⟨delay + s.currentTs, s.uid, context⟩⟩

def scheduleWithContext (context : BitVec 32) (delay : BitVec 64) (impl : Nat) :
    Except Failure (DefaultSimulatorImpl σ) :=
  (perform s.events (.insert (s.event context delay impl))).map fun result =>
    { s with
      uid := s.uid + 1
      unscheduledEvents := s.unscheduledEvents + 1
      events := result.1 }

/-- The delay is a signed number. -/
def schedule (delay : BitVec 64) (impl : Nat) :
    Except Failure (DefaultSimulatorImpl σ × EventId) :=
  if delay.msb then .error .invalid
  else (s.scheduleWithContext perform s.currentContext delay impl).map fun s' =>
    (s', EventId.of (s.event s.currentContext delay impl))

def scheduleNow (impl : Nat) : Except Failure (DefaultSimulatorImpl σ × EventId) :=
  s.schedule perform 0 impl

def scheduleDestroy (impl : Nat) : DefaultSimulatorImpl σ × EventId :=
  let id : EventId := ⟨some impl, s.currentTs, 0xffffffff, EventId.destroy⟩
  ({ s with destroyEvents := s.destroyEvents ++ [id], uid := s.uid + 1 }, id)

/-- Whether there is no implementation or it is cancelled. -/
def isCancelled (id : EventId) : Bool := id.impl.all fun impl => s.cancelled.contains impl

def isExpired (id : EventId) : Bool :=
  if id.uid = EventId.destroy then s.isCancelled id || !s.destroyEvents.contains id
  else id.impl.isNone || id.ts < s.currentTs ||
    (id.ts = s.currentTs && id.uid ≤ s.currentUid) || s.isCancelled id

/-- The implementation is cancelled. -/
def cancelImpl (id : EventId) : DefaultSimulatorImpl σ :=
  { s with cancelled := id.impl.toList ++ s.cancelled }

def cancel (id : EventId) : DefaultSimulatorImpl σ :=
  if s.isExpired id then s else s.cancelImpl id

/-- The event that an id designates in the scheduler. -/
def eventOf (id : EventId) : Event := ⟨id.impl.getD 0, ⟨id.ts, id.uid, id.context⟩⟩

def remove (id : EventId) : Except Failure (DefaultSimulatorImpl σ) :=
  if id.uid = EventId.destroy then .ok { s with destroyEvents := s.destroyEvents.erase id }
  else if s.isExpired id then .ok s
  else (perform s.events (.remove (eventOf id))).map fun result =>
    { s.cancelImpl id with
      events := result.1
      unscheduledEvents := s.unscheduledEvents - 1 }

/-- A round of the loop of `Run`: the event, and whether it is not cancelled and is notified. What
it does are the actions that follow. -/
def processOneEvent : Except Failure (DefaultSimulatorImpl σ × Event × Bool) := do
  let (events, result) ← perform s.events .removeNext
  match result with
  | .event next =>
    if s.stop || next.key.ts < s.currentTs then throw .invalid
    else return ({ s with
        events := events
        unscheduledEvents := s.unscheduledEvents - 1
        eventCount := s.eventCount + 1
        currentTs := next.key.ts
        currentContext := next.key.context
        currentUid := next.key.uid }, next, !s.cancelled.contains next.impl)
  | _ => throw .invalid

end Model

/-- What is called outside of events and inside of them. -/
inductive Action
  | schedule (delay : BitVec 64) (impl : Nat)
  | scheduleNow (impl : Nat)
  | scheduleWithContext (context : BitVec 32) (delay : BitVec 64) (impl : Nat)
  | scheduleDestroy (impl : Nat)
  | cancel (id : EventId)
  | remove (id : EventId)
  | stop
  | run
  | processOneEvent

/-! ## 2. Statement -/

/-- The events in the order in which they are scheduled, those that the loop took with whether they
were invoked, and those that are removed. -/
structure Ledger where
  scheduled : List Event
  executed : List (Event × Bool)
  removed : List Event
  deriving DecidableEq

/-- A step, with the ledger. -/
def step (perform : σ → Operation → Except Failure (σ × Result))
    (x : DefaultSimulatorImpl σ × Ledger) : Action → Except Failure (DefaultSimulatorImpl σ × Ledger)
  | .schedule delay impl => (x.1.schedule perform delay impl).map fun result =>
      (result.1, { x.2 with
        scheduled := x.2.scheduled ++ [x.1.event x.1.currentContext delay impl] })
  | .scheduleNow impl => (x.1.scheduleNow perform impl).map fun result =>
      (result.1, { x.2 with
        scheduled := x.2.scheduled ++ [x.1.event x.1.currentContext 0 impl] })
  | .scheduleWithContext context delay impl =>
    (x.1.scheduleWithContext perform context delay impl).map fun s =>
      (s, { x.2 with scheduled := x.2.scheduled ++ [x.1.event context delay impl] })
  | .scheduleDestroy impl => .ok ((x.1.scheduleDestroy impl).1, x.2)
  | .cancel id => .ok (x.1.cancel id, x.2)
  | .remove id => (x.1.remove perform id).map fun s =>
      (s, if id.uid = EventId.destroy || x.1.isExpired id then x.2
        else { x.2 with removed := x.2.removed ++ [eventOf id] })
  | .stop => .ok ({ x.1 with stop := true }, x.2)
  | .run => .ok ({ x.1 with stop := false }, x.2)
  | .processOneEvent => (x.1.processOneEvent perform).map fun result =>
      (result.1, { x.2 with executed := x.2.executed ++ [result.2] })

/-- An id that was returned, or that of no event. -/
def Known (ledger : Ledger) (id : EventId) : Prop :=
  id.impl = none ∨ id.uid = EventId.destroy ∨ ∃ ev ∈ ledger.scheduled, id = EventId.of ev

instance (ledger : Ledger) (id : EventId) : Decidable (Known ledger id) :=
  inferInstanceAs (Decidable (_ ∨ _ ∨ _))

/-- The time of the event is one of those that a simulation has, `2 ^ 63 - 1` at most, and the next
number is not one that was passed when the numbers began again. -/
def Fits (s : DefaultSimulatorImpl σ) (delay : BitVec 64) : Prop :=
  delay.toNat + s.currentTs.toNat < 2 ^ 63 ∧ EventId.valid ≤ s.uid

instance (s : DefaultSimulatorImpl σ) (delay : BitVec 64) : Decidable (Fits s delay) :=
  inferInstanceAs (Decidable (_ ∧ _))

/-- The numbers have not begun again and the times are not past the last one. -/
def Steady (x : DefaultSimulatorImpl σ × Ledger) : Action → Prop
  | .schedule delay _ => Fits x.1 delay
  | .scheduleNow _ => Fits x.1 0
  | .scheduleWithContext _ delay _ => Fits x.1 delay
  | .scheduleDestroy _ => EventId.valid ≤ x.1.uid
  | .cancel id => Known x.2 id
  | .remove id => Known x.2 id
  | _ => True

instance decidableSteady (x : DefaultSimulatorImpl σ × Ledger) : ∀ action, Decidable (Steady x action)
  | .schedule delay _ => inferInstanceAs (Decidable (Fits x.1 delay))
  | .scheduleNow _ => inferInstanceAs (Decidable (Fits x.1 0))
  | .scheduleWithContext _ delay _ => inferInstanceAs (Decidable (Fits x.1 delay))
  | .scheduleDestroy _ => inferInstanceAs (Decidable (EventId.valid ≤ x.1.uid))
  | .cancel id => inferInstanceAs (Decidable (Known x.2 id))
  | .remove id => inferInstanceAs (Decidable (Known x.2 id))
  | .stop | .run | .processOneEvent => isTrue trivial

/-- The events run in the order of time, and of scheduling at one time. One that is not cancelled
is pending or was invoked once. One is not expired as long as it is pending and not cancelled. The
loop goes on as long as there is a pending event and it is not stopped. -/
structure Faithful (perform : σ → Operation → Except Failure (σ × Result))
    (contents : σ → List Event) (s : DefaultSimulatorImpl σ) (ledger : Ledger) : Prop where
  order : ledger.executed.Pairwise fun x y => x.1.key.ts < y.1.key.ts ∨
    (x.1.key.ts = y.1.key.ts ∧ [x.1, y.1].Sublist ledger.scheduled)
  once : ∀ ev ∈ ledger.scheduled, ev.impl ∉ s.cancelled →
    (ev ∈ contents s.events ∧ ledger.executed.filter (·.1 = ev) = []) ∨
      (ev ∉ contents s.events ∧ ledger.executed.filter (·.1 = ev) = [(ev, true)])
  expired : ∀ ev ∈ ledger.scheduled, s.isExpired (EventId.of ev) = false ↔
    ev ∈ contents s.events ∧ ev.impl ∉ s.cancelled
  progress : contents s.events ≠ [] → s.stop = false →
    ∃ s' next invoked, s.processOneEvent perform = .ok (s', next, invoked)

/-! ## 3. The invariant -/

/-- The key of the current event. -/
def now (s : DefaultSimulatorImpl σ) : Nat := s.currentTs.toNat * 2 ^ 32 + s.currentUid.toNat

structure Kept (contents : σ → List Event) (Inv : σ → Prop) (s : DefaultSimulatorImpl σ)
    (ledger : Ledger) : Prop where
  inv : Inv s.events
  sorted : ledger.scheduled.Pairwise fun a b => a.key.uid < b.key.uid
  valid : ∀ ev ∈ ledger.scheduled, EventId.valid ≤ ev.key.uid
  fresh : EventId.valid ≤ s.uid →
    (∀ ev ∈ ledger.scheduled, ev.key.uid < s.uid) ∧ s.currentUid < s.uid
  ahead : ∀ ev ∈ contents s.events, s.now < ev.key.rank
  behind : ∀ x ∈ ledger.executed, x.1.key.rank ≤ s.now
  order : ledger.executed.Pairwise fun x y => x.1.key.rank < y.1.key.rank
  parts : (ledger.executed.map Prod.fst ++ (ledger.removed ++ contents s.events)).Perm
    ledger.scheduled
  dropped : ∀ ev ∈ ledger.removed, ev.impl ∈ s.cancelled
  silent : ∀ x ∈ ledger.executed, x.2 = false → x.1.impl ∈ s.cancelled

section Steps

variable {perform : σ → Operation → Except Failure (σ × Result)} {contents : σ → List Event}
  {Inv : σ → Prop} {s s' : DefaultSimulatorImpl σ} {ledger : Ledger}

theorem kept_initial {events : σ} (hinv : Inv events) (hempty : contents events = []) :
    Kept contents Inv (initial events) ⟨[], [], []⟩ where
  inv := hinv
  sorted := .nil
  valid := forall_mem_nil _
  fresh := fun _ => ⟨forall_mem_nil _, show (0#32) < 4#32 by decide⟩
  ahead := by
    show ∀ ev ∈ contents events, _
    rw [hempty]
    exact forall_mem_nil _
  behind := forall_mem_nil _
  order := .nil
  parts := by
    show ([] ++ ([] ++ contents events)).Perm []
    rw [hempty]
    exact .refl _
  dropped := forall_mem_nil _
  silent := forall_mem_nil _

theorem Kept.mem_scheduled (hk : Kept contents Inv s ledger) {ev : Event}
    (h : ev ∈ contents s.events) : ev ∈ ledger.scheduled :=
  hk.parts.mem_iff.mp (mem_append_right _ (mem_append_right _ h))

theorem uid_cases {list : List Event} {a b : Event}
    (hsorted : list.Pairwise fun a b => a.key.uid < b.key.uid) (ha : a ∈ list) (hb : b ∈ list) :
    a = b ∨ (a.key.uid < b.key.uid ∧ [a, b].Sublist list) ∨ b.key.uid < a.key.uid := by
  obtain ⟨before, after, rfl⟩ := append_of_mem ha
  obtain ⟨-, hafter, hbefore⟩ := pairwise_append.mp hsorted
  cases mem_append.mp hb with
  | inl hmem => exact .inr (.inr (hbefore b hmem a mem_cons_self))
  | inr hmem =>
    cases mem_cons.mp hmem with
    | inl heq => exact .inl heq.symm
    | inr hmem =>
      refine .inr (.inl ⟨(pairwise_cons.mp hafter).1 b hmem, ?_⟩)
      exact ((singleton_sublist.mpr hmem).cons_cons a).trans (sublist_append_right _ _)

theorem Kept.eq_of_uid (hk : Kept contents Inv s ledger) {ev ev' : Event}
    (h : ev ∈ ledger.scheduled) (h' : ev' ∈ ledger.scheduled) (huid : ev.key.uid = ev'.key.uid) :
    ev = ev' := by
  rcases uid_cases hk.sorted h h' with heq | ⟨hlt, -⟩ | hlt
  · exact heq
  · exact absurd huid (ne_of_lt hlt)
  · exact absurd huid.symm (ne_of_lt hlt)

theorem Kept.nodup (hk : Kept contents Inv s ledger) :
    (ledger.executed.map Prod.fst ++ (ledger.removed ++ contents s.events)).Nodup := by
  refine hk.parts.nodup_iff.mpr (hk.sorted.imp fun hlt heq => ?_)
  exact ne_of_lt hlt (congrArg (·.key.uid) heq)

section

variable (hserves : Serves perform contents Inv fun _ _ => True) (hk : Kept contents Inv s ledger)
include hserves hk

theorem Kept.enqueue {context : BitVec 32} {delay : BitVec 64} {impl : Nat} (hfits : Fits s delay)
    (h : s.scheduleWithContext perform context delay impl = .ok s') :
    Kept contents Inv s'
      { ledger with scheduled := ledger.scheduled ++ [s.event context delay impl] } := by
  obtain ⟨hbelow, hcur⟩ := hk.fresh hfits.2
  have hproper : Proper (contents s.events) (.insert (s.event context delay impl)) := fun e he =>
    ne_of_lt (hbelow e (hk.mem_scheduled he))
  obtain ⟨events, hinsert, hinv, hperm⟩ := hserves.insert hk.inv trivial hproper
  obtain ⟨result, hok, rfl⟩ := except_map_eq_ok.mp h
  rw [hinsert] at hok
  cases hok
  have hrank : s.now < (s.event context delay impl).key.rank := by
    have hts : (delay + s.currentTs).toNat = delay.toNat + s.currentTs.toNat := by
      rw [BitVec.toNat_add, Nat.mod_eq_of_lt (Nat.lt_trans hfits.1 (by decide))]
    have hlt := lt_def.mp hcur
    show _ < (delay + s.currentTs).toNat * 2 ^ 32 + s.uid.toNat
    unfold now
    rw [hts]
    omega
  constructor
  case inv => exact hinv
  case sorted =>
    refine pairwise_append.mpr ⟨hk.sorted, pairwise_singleton _ _, fun a ha b hb => ?_⟩
    rw [mem_singleton.mp hb]
    exact hbelow a ha
  case valid =>
    exact forall_mem_append.mpr ⟨hk.valid, forall_mem_singleton.mpr hfits.2⟩
  case fresh =>
    intro hvalid
    have hlt : s.uid < s.uid + 1 := by
      have h4 : 4 ≤ (s.uid.toNat + 1) % 2 ^ 32 := hvalid
      have huid := s.uid.isLt
      show s.uid.toNat < (s.uid.toNat + 1) % 2 ^ 32
      omega
    refine ⟨forall_mem_append.mpr ⟨fun ev hev => lt_trans (hbelow ev hev) hlt,
      forall_mem_singleton.mpr hlt⟩, lt_trans hcur hlt⟩
  case ahead =>
    intro ev hev
    cases mem_cons.mp (hperm.mem_iff.mp hev) with
    | inl heq => exact heq ▸ hrank
    | inr hmem => exact hk.ahead ev hmem
  case behind => exact hk.behind
  case order => exact hk.order
  case parts =>
    have hmiddle := (hperm.append_left ledger.removed).trans perm_middle
    have hall := (hmiddle.append_left (ledger.executed.map Prod.fst)).trans perm_middle
    exact hall.trans ((hk.parts.cons _).trans (perm_append_singleton _ _).symm)
  case dropped => exact hk.dropped
  case silent => exact hk.silent

/-- The round of the loop takes the next event, if the loop is not stopped. -/
theorem Kept.processOneEvent_ok : contents s.events = [] ∨
    ∃ next events, Next (contents s.events) next ∧ Inv events ∧
      (next :: contents events).Perm (contents s.events) ∧
      s.processOneEvent perform = if s.stop then .error .invalid else .ok ({ s with
        events := events
        unscheduledEvents := s.unscheduledEvents - 1
        eventCount := s.eventCount + 1
        currentTs := next.key.ts
        currentContext := next.key.context
        currentUid := next.key.uid }, next, !s.cancelled.contains next.impl) := by
  rcases hserves.removeNext hk.inv with ⟨hnil, -⟩ | ⟨next, events, hnext, hok, hinv, hperm⟩
  · exact .inl hnil
  · refine .inr ⟨next, events, hnext, hinv, hperm, ?_⟩
    have hahead := hk.ahead next hnext.1
    have hts : (next.key.ts < s.currentTs) = False := by
      have huid := next.key.uid.isLt
      unfold now EventKey.rank at hahead
      rw [lt_def, eq_iff_iff, iff_false]
      omega
    unfold processOneEvent
    rw [hok]
    show (if (s.stop || decide (next.key.ts < s.currentTs)) = true then _ else _) = _
    simp only [hts, decide_false, Bool.or_false]
    rfl

theorem Kept.processOneEvent {next : Event} {invoked : Bool}
    (h : s.processOneEvent perform = .ok (s', next, invoked)) :
    Kept contents Inv s' { ledger with executed := ledger.executed ++ [(next, invoked)] } := by
  rcases hk.processOneEvent_ok hserves with hnil | ⟨next', events, hnext, hinv, hperm, hok⟩
  · rcases hserves.removeNext hk.inv with ⟨-, herror⟩ | ⟨ev, -, hev, -⟩
    · unfold DefaultSimulatorImpl.processOneEvent at h
      rw [herror] at h
      cases h
    · exact absurd (hnil ▸ hev.1) not_mem_nil
  · rw [hok] at h
    split at h
    · cases h
    · cases h
      have hmem : ∀ e ∈ contents events, e ∈ contents s.events :=
        fun e he => hperm.mem_iff.mp (mem_cons_of_mem _ he)
      have hnow : s.now < next.key.rank := hk.ahead next hnext.1
      have hscheduled := hk.mem_scheduled hnext.1
      constructor
      case inv => exact hinv
      case sorted => exact hk.sorted
      case valid => exact hk.valid
      case fresh => exact fun hvalid => ⟨(hk.fresh hvalid).1, (hk.fresh hvalid).1 next hscheduled⟩
      case ahead =>
        intro e he
        refine Nat.lt_of_le_of_ne ((next_iff.mp hnext).2 e (hmem e he)) fun heq => ?_
        have hsame := hk.eq_of_uid hscheduled (hk.mem_scheduled (hmem e he))
          (EventKey.rank_inj heq).2
        have hnodup : (next :: contents events).Nodup :=
          hperm.nodup_iff.mpr (nodup_append.mp (nodup_append.mp hk.nodup).2.1).2.1
        exact (nodup_cons.mp hnodup).1 (hsame ▸ he)
      case behind =>
        refine forall_mem_append.mpr ⟨fun x hx => ?_, forall_mem_singleton.mpr ?_⟩
        · exact Nat.le_trans (hk.behind x hx) (Nat.le_of_lt hnow)
        · exact Nat.le_refl _
      case order =>
        refine pairwise_append.mpr ⟨hk.order, pairwise_singleton _ _, fun x hx y hy => ?_⟩
        rw [mem_singleton.mp hy]
        exact Nat.lt_of_le_of_lt (hk.behind x hx) hnow
      case parts =>
        show ((ledger.executed ++ [(next, _)]).map Prod.fst ++ (ledger.removed ++ contents events)).Perm _
        rw [map_append, append_assoc]
        refine List.Perm.trans (List.Perm.append_left _ ?_) hk.parts
        show (next :: (ledger.removed ++ contents events)).Perm _
        exact perm_middle.symm.trans (hperm.append_left ledger.removed)
      case dropped => exact hk.dropped
      case silent =>
        refine forall_mem_append.mpr ⟨hk.silent, forall_mem_singleton.mpr fun hsilent => ?_⟩
        exact contains_iff_mem.mp ((Bool.not_eq_false' ..).mp hsilent)

end

theorem isExpired_eq {ev : Event} (hvalid : EventId.valid ≤ ev.key.uid) :
    s.isExpired (EventId.of ev) =
      (decide (ev.key.rank ≤ s.now) || s.cancelled.contains ev.impl) := by
  have hne : (EventId.of ev).uid ≠ EventId.destroy := by
    intro heq
    have h4 : (4#32) ≤ ev.key.uid := hvalid
    rw [show ev.key.uid = 2#32 from heq] at h4
    exact absurd h4 (by decide)
  have hpast : (decide (ev.key.ts < s.currentTs) ||
      (decide (ev.key.ts = s.currentTs) && decide (ev.key.uid ≤ s.currentUid))) =
        decide (ev.key.rank ≤ s.now) := by
    have huid := ev.key.uid.isLt
    have hcur := s.currentUid.isLt
    unfold now EventKey.rank
    rw [Bool.eq_iff_iff, Bool.or_eq_true, Bool.and_eq_true, decide_eq_true_eq, decide_eq_true_eq,
      decide_eq_true_eq, decide_eq_true_eq, lt_def, BitVec.le_def, ← BitVec.toNat_inj]
    omega
  unfold isExpired
  rw [if_neg hne, ← hpast]
  show (false || _ || _ || s.cancelled.contains ev.impl) = _
  rw [Bool.false_or]
  rfl

theorem Kept.isExpired_iff (hk : Kept contents Inv s ledger) {ev : Event}
    (h : ev ∈ ledger.scheduled) : s.isExpired (EventId.of ev) = false ↔
      ev ∈ contents s.events ∧ ev.impl ∉ s.cancelled := by
  rw [isExpired_eq (hk.valid ev h), Bool.or_eq_false_iff, decide_eq_false_iff_not, Nat.not_le,
    ← Bool.not_eq_true, contains_iff_mem]
  constructor
  · rintro ⟨hahead, hcancelled⟩
    refine ⟨?_, hcancelled⟩
    cases mem_append.mp (hk.parts.mem_iff.mpr h) with
    | inl hexecuted =>
      obtain ⟨x, hx, rfl⟩ := mem_map.mp hexecuted
      exact absurd hahead (Nat.not_lt.mpr (hk.behind x hx))
    | inr hmem =>
      cases mem_append.mp hmem with
      | inl hremoved => exact absurd (hk.dropped ev hremoved) hcancelled
      | inr hpending => exact hpending
  · rintro ⟨hpending, hcancelled⟩
    exact ⟨hk.ahead ev hpending, hcancelled⟩

theorem Kept.cancelImpl (hk : Kept contents Inv s ledger) (id : EventId) :
    Kept contents Inv (s.cancelImpl id) ledger :=
  { hk with
    dropped := fun ev hev => mem_append_right _ (hk.dropped ev hev)
    silent := fun x hx hsilent => mem_append_right _ (hk.silent x hx hsilent) }

theorem Kept.remove (hserves : Serves perform contents Inv fun _ _ => True)
    (hk : Kept contents Inv s ledger) {id : EventId} (hknown : Known ledger id)
    (h : s.remove perform id = .ok s') :
    Kept contents Inv s' (if id.uid = EventId.destroy || s.isExpired id then ledger
      else { ledger with removed := ledger.removed ++ [eventOf id] }) := by
  unfold DefaultSimulatorImpl.remove at h
  split at h
  · next hdestroy =>
    cases h
    rw [decide_eq_true hdestroy, Bool.true_or, if_pos rfl]
    exact { hk with }
  · next hdestroy =>
    split at h
    · next hexpired =>
      cases h
      rw [hexpired, Bool.or_true, if_pos rfl]
      exact hk
    · next hexpired =>
      have hlive : (decide (id.uid = EventId.destroy) || s.isExpired id) = false := by
        rw [decide_eq_false hdestroy, Bool.eq_false_iff.mpr hexpired]
        rfl
      rw [hlive, if_neg Bool.false_ne_true]
      rcases hknown with hnone | hdestroy' | ⟨ev, hev, rfl⟩
      · refine absurd ?_ hexpired
        unfold isExpired
        rw [if_neg hdestroy, hnone]
        rfl
      · exact absurd hdestroy' hdestroy
      · obtain ⟨hpending, -⟩ := (hk.isExpired_iff hev).mp (Bool.eq_false_iff.mpr hexpired)
        have hsame : eventOf (EventId.of ev) = ev := rfl
        rw [hsame] at h ⊢
        have hproper : Proper (contents s.events) (.remove ev) := fun e he huid =>
          hk.eq_of_uid (hk.mem_scheduled he) hev huid
        obtain ⟨events, hok, hinv, hperm⟩ := hserves.remove hk.inv trivial hproper hpending
        rw [hok] at h
        cases h
        have hcancelled := hk.cancelImpl (EventId.of ev)
        constructor
        case inv => exact hinv
        case sorted => exact hk.sorted
        case valid => exact hk.valid
        case fresh => exact hk.fresh
        case ahead =>
          exact fun e he => hk.ahead e (hperm.mem_iff.mp (mem_cons_of_mem _ he))
        case behind => exact hk.behind
        case order => exact hk.order
        case parts =>
          refine List.Perm.trans (List.Perm.append_left _ ?_) hk.parts
          show ((ledger.removed ++ [ev]) ++ contents events).Perm _
          rw [append_assoc]
          exact hperm.append_left ledger.removed
        case dropped =>
          exact forall_mem_append.mpr ⟨hcancelled.dropped,
            forall_mem_singleton.mpr (mem_append_left _ (mem_singleton_self _))⟩
        case silent => exact hcancelled.silent

theorem Kept.scheduleDestroy (hk : Kept contents Inv s ledger) (impl : Nat)
    (hvalid : EventId.valid ≤ s.uid) : Kept contents Inv (s.scheduleDestroy impl).1 ledger := by
  obtain ⟨hbelow, hcur⟩ := hk.fresh hvalid
  refine { hk with fresh := fun hnext => ?_ }
  have hlt : s.uid < s.uid + 1 := by
    have h4 : 4 ≤ (s.uid.toNat + 1) % 2 ^ 32 := hnext
    have huid := s.uid.isLt
    show s.uid.toNat < (s.uid.toNat + 1) % 2 ^ 32
    omega
  exact ⟨fun ev hev => lt_trans (hbelow ev hev) hlt, lt_trans hcur hlt⟩

theorem Kept.step (hserves : Serves perform contents Inv fun _ _ => True)
    (hk : Kept contents Inv s ledger) {action : Action} (hsteady : Steady (s, ledger) action)
    {ledger' : Ledger} (h : step perform (s, ledger) action = .ok (s', ledger')) :
    Kept contents Inv s' ledger' := by
  have hschedule {delay : BitVec 64} {impl : Nat} (hfits : Fits s delay)
      (h : ((s.schedule perform delay impl).map fun result => (result.1, { ledger with
        scheduled := ledger.scheduled ++ [s.event s.currentContext delay impl] })) =
          .ok (s', ledger')) : Kept contents Inv s' ledger' := by
    obtain ⟨result, hok, heq⟩ := except_map_eq_ok.mp h
    cases heq
    unfold schedule at hok
    split at hok
    · cases hok
    · obtain ⟨s₁, hinsert, rfl⟩ := except_map_eq_ok.mp hok
      exact hk.enqueue hserves hfits hinsert
  cases action with
  | schedule delay impl | scheduleNow impl => exact hschedule hsteady h
  | scheduleWithContext context delay impl =>
    obtain ⟨s₁, hinsert, heq⟩ := except_map_eq_ok.mp h
    cases heq
    exact hk.enqueue hserves hsteady hinsert
  | scheduleDestroy impl =>
    cases h
    exact hk.scheduleDestroy impl hsteady
  | cancel id =>
    cases h
    show Kept contents Inv (s.cancel id) ledger
    unfold cancel
    split
    · exact hk
    · exact hk.cancelImpl id
  | remove id =>
    obtain ⟨s₁, hremove, heq⟩ := except_map_eq_ok.mp h
    cases heq
    exact hk.remove hserves hsteady hremove
  | stop | run =>
    cases h
    exact { hk with }
  | processOneEvent =>
    obtain ⟨⟨s₁, next, invoked⟩, hprocess, heq⟩ := except_map_eq_ok.mp h
    cases heq
    exact hk.processOneEvent hserves hprocess

/-! ## 4. Runs -/

theorem filter_eq_singleton {executed : List (Event × Bool)} {x : Event × Bool}
    (hnodup : (executed.map Prod.fst).Nodup) (hx : x ∈ executed) :
    executed.filter (·.1 = x.1) = [x] := by
  obtain ⟨before, after, rfl⟩ := append_of_mem hx
  rw [map_append, map_cons, nodup_append, nodup_cons] at hnodup
  obtain ⟨-, ⟨hafter, -⟩, hbefore⟩ := hnodup
  have hnone : before.filter (·.1 = x.1) = [] := filter_eq_nil_iff.mpr fun y hy heq =>
    hbefore y.1 (mem_map_of_mem hy) x.1 mem_cons_self (of_decide_eq_true heq)
  have hnone' : after.filter (·.1 = x.1) = [] := filter_eq_nil_iff.mpr fun y hy heq =>
    hafter ((of_decide_eq_true heq : y.1 = x.1) ▸ mem_map_of_mem hy)
  have hself : (x :: after).filter (·.1 = x.1) = x :: after.filter (·.1 = x.1) :=
    filter_cons_of_pos (decide_eq_true rfl)
  rw [filter_append, hnone, hself, hnone']
  rfl

theorem Kept.faithful (hserves : Serves perform contents Inv fun _ _ => True)
    (hk : Kept contents Inv s ledger) : Faithful perform contents s ledger := by
  have hmem {x : Event × Bool} (hx : x ∈ ledger.executed) : x.1 ∈ ledger.scheduled :=
    hk.parts.mem_iff.mp (mem_append_left _ (mem_map_of_mem hx))
  constructor
  case order =>
    refine List.Pairwise.imp_of_mem (fun {x y} hx hy hlt => ?_) hk.order
    have huid := x.1.key.uid.isLt
    have huid' := y.1.key.uid.isLt
    unfold EventKey.rank at hlt
    cases Nat.decLt x.1.key.ts.toNat y.1.key.ts.toNat with
    | isTrue hts => exact .inl (lt_def.mpr hts)
    | isFalse hts =>
      refine .inr ⟨BitVec.eq_of_toNat_eq (by omega), ?_⟩
      have hless : x.1.key.uid < y.1.key.uid := lt_def.mpr (by omega)
      rcases uid_cases hk.sorted (hmem hx) (hmem hy) with heq | ⟨-, hsub⟩ | hgreater
      · exact absurd (congrArg (·.key.uid) heq) (ne_of_lt hless)
      · exact hsub
      · exact absurd hgreater (BitVec.not_lt.mpr (BitVec.le_of_lt hless))
  case once =>
    intro ev hev hcancelled
    obtain ⟨hexecuted, -, hdisjoint⟩ := nodup_append.mp hk.nodup
    cases mem_append.mp (hk.parts.mem_iff.mpr hev) with
    | inl htaken =>
      refine .inr ⟨fun hpending => ?_, ?_⟩
      · exact hdisjoint ev htaken ev (mem_append_right _ hpending) rfl
      · obtain ⟨⟨ev', invoked⟩, hx, rfl⟩ := mem_map.mp htaken
        have hinvoked : invoked = true := by
          cases invoked with
          | true => rfl
          | false => exact absurd (hk.silent _ hx rfl) hcancelled
        rw [hinvoked] at hx
        exact filter_eq_singleton hexecuted hx
    | inr hmem' =>
      cases mem_append.mp hmem' with
      | inl hremoved => exact absurd (hk.dropped ev hremoved) hcancelled
      | inr hpending =>
        refine .inl ⟨hpending, filter_eq_nil_iff.mpr fun x hx heq => ?_⟩
        exact hdisjoint x.1 (mem_map_of_mem hx) ev hmem' (of_decide_eq_true heq)
  case expired => exact fun ev hev => hk.isExpired_iff hev
  case progress =>
    intro hne hstop
    rcases hk.processOneEvent_ok hserves with hnil | ⟨next, events, -, -, -, hok⟩
    · exact absurd hnil hne
    · rw [hstop, if_neg Bool.false_ne_true] at hok
      exact ⟨_, _, _, hok⟩

/-- In every run with a scheduler that meets its contract, in which the numbers do not begin again
and no time is past the last one. -/
theorem execution_of_run (hserves : Serves perform contents Inv fun _ _ => True) {events : σ}
    (hinv : Inv events) (hempty : contents events = []) {actions : List Action}
    (hrun : FallibleRun (step perform) Steady (initial events, ⟨[], [], []⟩) actions (s, ledger)) :
    Faithful perform contents s ledger := by
  have hkept : Kept contents Inv s ledger := by
    refine hrun.invariant (fun x => Kept contents Inv x.1 x.2) ?_ (kept_initial hinv hempty)
    rintro ⟨s, ledger⟩ action ⟨s', ledger'⟩ hk hsteady hstep
    exact hk.step hserves hsteady hstep
  exact hkept.faithful hserves

end Steps

/-- Three events, of which the second one in the order of scheduling is cancelled. -/
def threeEvents : List Action :=
  [.schedule 5 1, .scheduleWithContext 7 3 2, .scheduleNow 3, .processOneEvent,
    .cancel ⟨some 2, 3, 7, 5⟩, .processOneEvent]

theorem execution_of_run_three :
    Faithful MapScheduler.perform id
      ⟨[⟨1, ⟨5, 4, 0xffffffff⟩⟩], [], false, 7, 5, 3, 7, 2, 1, [2]⟩
      ⟨[⟨1, ⟨5, 4, 0xffffffff⟩⟩, ⟨2, ⟨3, 5, 7⟩⟩, ⟨3, ⟨0, 6, 0xffffffff⟩⟩],
        [(⟨3, ⟨0, 6, 0xffffffff⟩⟩, true), (⟨2, ⟨3, 5, 7⟩⟩, false)], []⟩ :=
  execution_of_run MapScheduler.serves List.Pairwise.nil rfl <|
    show FallibleRun (step MapScheduler.perform) Steady (initial [], ⟨[], [], []⟩) threeEvents _ from
    .cons (by decide) rfl <| .cons (by decide) rfl <| .cons (by decide) rfl <|
    .cons (by decide) rfl <| .cons (by decide) rfl <| .cons (by decide) rfl (.nil _)

/-! ## 5. The numbers begin again -/

/-- Nothing is pending at time 0. -/
def idle (uid currentUid : BitVec 32) (eventCount : BitVec 64) :
    DefaultSimulatorImpl MapScheduler :=
  ⟨[], [], false, uid, currentUid, 0, 0xffffffff, eventCount, 0, []⟩

/-- An event is scheduled and runs, again and again. -/
def rounds : Nat → List Action
  | 0 => []
  | n + 1 => .scheduleNow 0 :: .processOneEvent :: rounds n

theorem rounds_run (n : Nat) (uid currentUid : BitVec 32) (eventCount : BitVec 64)
    (ledger : Ledger) : ∃ ledger', FallibleRun (step MapScheduler.perform) (fun _ _ => True)
      (idle uid currentUid eventCount, ledger) (rounds (n + 1))
      (idle (uid + (ofNat 32 n + 1)) (uid + ofNat 32 n)
        (eventCount + (ofNat 64 n + 1)), ledger') := by
  induction n generalizing uid currentUid eventCount ledger with
  | zero =>
    refine ⟨⟨ledger.scheduled ++ [⟨0, ⟨0, uid, 0xffffffff⟩⟩],
      ledger.executed ++ [(⟨0, ⟨0, uid, 0xffffffff⟩⟩, true)], ledger.removed⟩, ?_⟩
    rw [show ofNat 32 0 = 0#32 from rfl, BitVec.add_zero]
    exact .cons trivial rfl (.cons trivial rfl (.nil _))
  | succ n ih =>
    obtain ⟨ledger', hrun⟩ := ih (uid + 1) uid (eventCount + 1)
      ⟨ledger.scheduled ++ [⟨0, ⟨0, uid, 0xffffffff⟩⟩],
        ledger.executed ++ [(⟨0, ⟨0, uid, 0xffffffff⟩⟩, true)], ledger.removed⟩
    have hnext (w : Nat) (x : BitVec w) : x + 1 + ofNat w n = x + ofNat w (n + 1) := by
      rw [BitVec.ofNat_add, BitVec.add_assoc, BitVec.add_comm 1]
      rfl
    rw [← BitVec.add_assoc, hnext, BitVec.add_assoc, ← BitVec.add_assoc (eventCount + 1), hnext,
      BitVec.add_assoc] at hrun
    exact ⟨ledger', .cons trivial rfl (.cons trivial rfl hrun)⟩

/-- The number of the last event before the numbers begin again. -/
def lastUid : BitVec 32 := 0xffffffff

def first : Event := ⟨1, ⟨0, lastUid, 0xffffffff⟩⟩

def second : Event := ⟨2, ⟨0, 0, 0xffffffff⟩⟩

/-- Both are pending. -/
def overtaken (eventCount : BitVec 64) : DefaultSimulatorImpl MapScheduler :=
  ⟨[second, first], [], false, 1, lastUid - 1, 0, 0xffffffff, eventCount, 2, []⟩

theorem overtaken_run (eventCount : BitVec 64) (ledger : Ledger) :
    FallibleRun (step MapScheduler.perform) (fun _ _ => True)
      (idle lastUid (lastUid - 1) eventCount, ledger) [.scheduleNow 1, .scheduleNow 2]
      (overtaken eventCount, { ledger with scheduled := ledger.scheduled ++ [first] ++ [second] }) := by
  have hagain : lastUid + 1 = 0 := by decide
  have hfirst : step MapScheduler.perform (idle lastUid (lastUid - 1) eventCount, ledger)
      (.scheduleNow 1) =
        .ok (⟨[first], [], false, lastUid + 1, lastUid - 1, 0, 0xffffffff, eventCount, 1, []⟩,
          { ledger with scheduled := ledger.scheduled ++ [first] }) := rfl
  rw [hagain] at hfirst
  exact .cons trivial hfirst (.cons trivial rfl (.nil _))

/-- Two events at one time, the second of which has number 0: it is pending and not cancelled, but
taken for expired, and it runs before the first one. -/
theorem uid_begins_again : ∃ actions s s' ledger, ∃ invoked : Bool,
    FallibleRun (step MapScheduler.perform) (fun _ _ => True) (initial [], ⟨[], [], []⟩) actions
      (s, ledger) ∧
    [first, second].Sublist ledger.scheduled ∧ first.key.ts = second.key.ts ∧
    s.events = [second, first] ∧ s.cancelled = [] ∧ s.isExpired (EventId.of second) = true ∧
    s.processOneEvent MapScheduler.perform = .ok (s', second, invoked) := by
  obtain ⟨ledger, hrounds⟩ := rounds_run (2 ^ 32 - 6) EventId.valid EventId.invalid 0 ⟨[], [], []⟩
  have huid : EventId.valid + (BitVec.ofNat 32 (2 ^ 32 - 6) + 1) = lastUid := by decide
  have hcurrent : EventId.valid + BitVec.ofNat 32 (2 ^ 32 - 6) = lastUid - 1 := by decide
  rw [huid, hcurrent] at hrounds
  refine ⟨_, _, _, _, _, hrounds.append (overtaken_run _ ledger), ?_, rfl, rfl, rfl, rfl, rfl⟩
  rw [List.append_assoc]
  exact List.sublist_append_right _ _

end DefaultSimulatorImpl

end MoeJit.Simulator
