import MoeJit.Lib.AssocMap
import MoeJit.Lib.EventQueue

/-!
# Windows of batches

`prediction_callback`, `optimize_network` and `restore_network`, which are the same
in `FattreeTopology` and `DragonflyTopology`. A prediction gives the communication
of a batch a begin and an end; the earliest begin and the latest end of a batch are
its window. An event at the begin of a window optimises all links and one at its
end restores them, unless it finds itself overtaken by another prediction or in the
window of another batch.

`optimized_of_fits`: what goes wrong and nothing else. A window that begins at the
very time of a restoration is overlooked by it when the optimisation has run
already, and a window that is extended after its end is not optimised again
(`restored_too_soon`).
-/

namespace MoeJit.BatchWindows

/-! ## 1. The topology -/

/-- The members that the functions read. -/
structure Config where
  /-- `number_of_servers` of the fat tree, `serverCount` of the dragonfly. -/
  serverCount : Nat
  bandwidth : String
  delay : String
  bandwidth_opt : String
  delay_opt : String := "1us"
  is_bandwidth_opt : Bool := true
  optimization_delay : Int := 1000000

/-- The constructor of `FattreeTopology`. -/
def fattreeTopology (k : Nat) (bandwidth delay bandwidth_opt : String)
    (optimization_delay : Int) : Config where
  serverCount := k / 2 * (k / 2) * k
  bandwidth := bandwidth
  delay := delay
  bandwidth_opt := bandwidth_opt
  optimization_delay := optimization_delay

/-- The entry of a batch in `batchTimeMap`. -/
structure Window where
  earliest : Int
  latest : Int
  deriving DecidableEq

/-- What is scheduled, with the batch. -/
inductive Action
  | optimizeNetwork (batchID : Int)
  | restoreNetwork (batchID : Int)
  deriving DecidableEq

/-- The topology in a simulation. All links have the same attributes, since no
function changes those of one link only. -/
structure Topology where
  now : Int := 0
  events : EventQueue Action := .empty
  batchTimeMap : AList fun _ : Int => Window := ∅
  linkBandwidth : String
  linkDelay : String

def init (cfg : Config) : Topology where
  linkBandwidth := cfg.bandwidth
  linkDelay := cfg.delay

/-- The conversion to an unsigned integer of 64 bits. -/
def uint64 (n : Int) : Int := n % 2 ^ 64

/-- The conversion to a signed integer of 64 bits. -/
def int64 (n : Int) : Int := n.bmod (2 ^ 64)

def Config.bandwidthOptNumber (cfg : Config) : Int :=
  if '4' ∈ cfg.bandwidth_opt.toList then 400 else 100

/-- `comm_end_time_nano`, unsigned. -/
def Config.commEndTime (cfg : Config) (comm_begin_time comm_size : Int) : Int :=
  uint64 (comm_begin_time + uint64 (2 * cfg.serverCount * comm_size * 8) / cfg.bandwidthOptNumber)

namespace Topology

def setWindow (st : Topology) (batchID : Int) (w : Window) : Topology :=
  { st with batchTimeMap := st.batchTimeMap.insert batchID w }

/-- `Schedule`, which asserts that the delay is not negative. -/
def schedule (st : Topology) (delay : Int) (action : Action) : Option Topology :=
  if 0 ≤ delay then some { st with events := st.events.schedule ⟨st.now + delay, action⟩ } else none

/-- A begin before the earliest becomes the earliest. -/
def recordBegin (st : Topology) (batchID : Int) (w : Window) (start : Int) : Option Topology :=
  if w.earliest > start then
    (st.setWindow batchID ⟨start, w.latest⟩).schedule (start - st.now) (.optimizeNetwork batchID)
  else some st

/-- An end after the latest becomes the latest. -/
def recordEnd (st : Topology) (batchID : Int) (w : Window) (comm_end_time : Int) :
    Option Topology :=
  if uint64 w.latest < comm_end_time then
    (st.setWindow batchID ⟨w.earliest, int64 comm_end_time⟩).schedule
      (int64 (comm_end_time - st.now)) (.restoreNetwork batchID)
  else some st

/-- The two branches of `prediction_callback` for a window from `start`, which
differ in nothing else. -/
def record (st : Topology) (batchID : Int) (start comm_end_time : Int) : Option Topology :=
  match st.batchTimeMap.lookup batchID with
  | none => do
    let st := st.setWindow batchID ⟨start, int64 comm_end_time⟩
    let st ← st.schedule (start - st.now) (.optimizeNetwork batchID)
    st.schedule (int64 (comm_end_time - st.now)) (.restoreNetwork batchID)
  | some w => do
    let st ← st.recordBegin batchID w start
    st.recordEnd batchID ⟨min w.earliest start, w.latest⟩ comm_end_time

/-- `time_limit_nano`. -/
def timeLimit (cfg : Config) (st : Topology) : Int := st.now + cfg.optimization_delay

/-- The begin of the window: not before the limit. -/
def start (cfg : Config) (st : Topology) (comm_begin_time : Int) : Int :=
  if comm_begin_time ≥ st.timeLimit cfg then comm_begin_time else st.timeLimit cfg

def predictionCallback (cfg : Config) (st : Topology)
    (batchID comm_begin_time comm_size : Int) : Option Topology :=
  if cfg.commEndTime comm_begin_time comm_size < uint64 (st.timeLimit cfg) then some st
  else st.record batchID (st.start cfg comm_begin_time) (cfg.commEndTime comm_begin_time comm_size)

def changeAllLinkBandwidth (st : Topology) (bandwidth : String) : Topology :=
  { st with linkBandwidth := bandwidth }

def changeAllLinkDelay (st : Topology) (delay : String) : Topology :=
  { st with linkDelay := delay }

def optimizeNetwork (cfg : Config) (st : Topology) (batchID : Int) : Topology :=
  match st.batchTimeMap.lookup batchID with
  | none => st
  | some w =>
    if w.earliest < st.now then st
    else if cfg.is_bandwidth_opt then st.changeAllLinkBandwidth cfg.bandwidth_opt
    else st.changeAllLinkDelay cfg.delay_opt

/-- The test of `restore_network`: another batch is in its window. -/
def otherOpen (st : Topology) (batchID : Int) : Bool :=
  st.batchTimeMap.entries.any fun it =>
    it.1 ≠ batchID && (it.2.earliest < st.now && it.2.latest > st.now)

def restoreNetwork (cfg : Config) (st : Topology) (batchID : Int) : Topology :=
  match st.batchTimeMap.lookup batchID with
  | none => st
  | some w =>
    if w.latest > st.now then st
    else if st.otherOpen batchID then st
    else if cfg.is_bandwidth_opt then st.changeAllLinkBandwidth cfg.bandwidth
    else st.changeAllLinkDelay cfg.delay

def perform (cfg : Config) (st : Topology) : Action → Topology
  | .optimizeNetwork batchID => st.optimizeNetwork cfg batchID
  | .restoreNetwork batchID => st.restoreNetwork cfg batchID

/-- The first event is taken from the queue. -/
def advance (st : Topology) (e : Event Action) : Topology :=
  { st with now := e.time, events := st.events.tail }

end Topology

/-- What happens next: a prediction, the next event of the topology, or something
else at a later time. -/
inductive Op
  | predict (batchID comm_begin_time comm_size : Int)
  | next
  | pass (time : Int)

/-- A step, unless an assertion fails. Time is a signed integer of 64 bits and does
not pass an event. -/
def Topology.step (cfg : Config) (st : Topology) : Op → Option Topology
  | .predict batchID comm_begin_time comm_size =>
    st.predictionCallback cfg batchID comm_begin_time comm_size
  | .next =>
    match st.events.events with
    | [] => none
    | e :: _ => some ((st.advance e).perform cfg e.what)
  | .pass time =>
    if st.now ≤ time ∧ time < 2 ^ 63 ∧ ∀ e ∈ st.events.events, time ≤ e.time then
      some { st with now := time }
    else none

/-- The topologies that are reached by steps that satisfy a condition. -/
inductive Run (cfg : Config) (ok : Topology → Op → Prop) : Topology → Prop
  | init : Run cfg ok (init cfg)
  | step {st st' : Topology} (op : Op) : Run cfg ok st → ok st op → st.step cfg op = some st' →
      Run cfg ok st'

namespace Topology

def Optimized (cfg : Config) (st : Topology) : Prop :=
  if cfg.is_bandwidth_opt then st.linkBandwidth = cfg.bandwidth_opt
  else st.linkDelay = cfg.delay_opt

def Normal (cfg : Config) (st : Topology) : Prop :=
  if cfg.is_bandwidth_opt then st.linkBandwidth = cfg.bandwidth else st.linkDelay = cfg.delay

/-- All events up to now have run. -/
def Settled (st : Topology) : Prop := ∀ e ∈ st.events.events, st.now < e.time

/-- The links are as the windows want them. -/
def Right (cfg : Config) (st : Topology) : Prop :=
  (∀ batchID w, st.batchTimeMap.lookup batchID = some w → w.earliest ≤ st.now → st.now < w.latest →
    st.Optimized cfg) ∧
  ((∀ batchID w, st.batchTimeMap.lookup batchID = some w → w.latest ≤ st.now) → st.Normal cfg)

/-- An optimisation at this very time is still to come. -/
def Coming (st : Topology) : Prop :=
  ∃ batchID w, st.batchTimeMap.lookup batchID = some w ∧ w.earliest = st.now ∧
    ⟨st.now, .optimizeNetwork batchID⟩ ∈ st.events.events

/-- `restore_network` restores the links. -/
def Restores (st : Topology) (batchID : Int) : Prop :=
  ∃ w, st.batchTimeMap.lookup batchID = some w ∧ w.latest ≤ st.now ∧ st.otherOpen batchID = false

/-- The steps that do no harm. A prediction, unless it is dropped, ends its window
after the begin and extends none that has ended, unless the links are optimised;
and no window begins at the time of a restoration, unless an optimisation follows. -/
def Fits (cfg : Config) (st : Topology) : Op → Prop
  | .predict batchID comm_begin_time comm_size =>
    let comm_end_time := cfg.commEndTime comm_begin_time comm_size
    uint64 (st.timeLimit cfg) ≤ comm_end_time →
      st.start cfg comm_begin_time ≤ int64 comm_end_time ∧
      ∀ w, st.batchTimeMap.lookup batchID = some w → w.latest ≤ st.now →
        st.now < int64 comm_end_time → st.Optimized cfg ∨ st.Coming
  | .next => ∀ e batchID, st.events.events.head? = some e → e.what = .restoreNetwork batchID →
      (st.advance e).Restores batchID →
      ∀ batchID' w, st.batchTimeMap.lookup batchID' = some w → w.earliest = e.time →
        e.time < w.latest → (st.advance e).Coming
  | .pass _ => True

end Topology

/-! ## 2. The queue and the windows -/

/-- Every window has the events it still needs. -/
structure Sched (st : Topology) : Prop where
  now_nonneg : 0 ≤ st.now
  now_lt : st.now < 2 ^ 63
  pending : ∀ e ∈ st.events.events, st.now ≤ e.time ∧ e.time < 2 ^ 63
  window : ∀ b w, st.batchTimeMap.lookup b = some w →
    0 ≤ w.earliest ∧ w.earliest ≤ w.latest ∧ w.latest < 2 ^ 63
  optimize : ∀ b w, st.batchTimeMap.lookup b = some w → st.now < w.earliest →
    ⟨w.earliest, .optimizeNetwork b⟩ ∈ st.events.events
  restore : ∀ b w, st.batchTimeMap.lookup b = some w → st.now < w.latest →
    ⟨w.latest, .restoreNetwork b⟩ ∈ st.events.events
  followed : ∀ b w, st.batchTimeMap.lookup b = some w → w.earliest = w.latest →
    EventQueue.Followed ⟨w.earliest, .optimizeNetwork b⟩ ⟨w.latest, .restoreNetwork b⟩
      st.events.events

/-- The links are optimised in every window, or about to be, and else normal, or
about to be. -/
structure Inv (cfg : Config) (st : Topology) : Prop extends Sched st where
  covered : ∀ b w, st.batchTimeMap.lookup b = some w → w.earliest ≤ st.now → st.now < w.latest →
    st.Optimized cfg ∨ st.Coming
  normal : st.Normal cfg ∨
    (∃ b w, st.batchTimeMap.lookup b = some w ∧ st.now < w.latest) ∨
    ∃ b w, st.batchTimeMap.lookup b = some w ∧ w.latest = st.now ∧
      ⟨st.now, .restoreNetwork b⟩ ∈ st.events.events

theorem restore_ne_optimize {t t' b b' : Int} :
    (⟨t, .restoreNetwork b⟩ : Event Action) ≠ ⟨t', .optimizeNetwork b'⟩ := by
  intro heq
  cases heq

variable {cfg : Config} {st st' : Topology} {b b' : Int} {w : Window} {es : List (Event Action)}

theorem inv_init (cfg : Config) : Inv cfg (init cfg) where
  now_nonneg := Int.le_refl 0
  now_lt := by
    show (0 : Int) < 2 ^ 63
    decide
  pending _ he := absurd he List.not_mem_nil
  window _ _ h := by cases h
  optimize _ _ h := by cases h
  restore _ _ h := by cases h
  followed _ _ h := by cases h
  covered _ _ h := by cases h
  normal := by
    refine .inl ?_
    unfold Topology.Normal
    split
    · rfl
    · rfl

theorem Inv.pass (h : Inv cfg st) {time : Int} (hnow : st.now ≤ time) (hlt : time < 2 ^ 63)
    (hevents : ∀ e ∈ st.events.events, time ≤ e.time) : Inv cfg { st with now := time } where
  now_nonneg := Int.le_trans h.now_nonneg hnow
  now_lt := hlt
  pending e he := ⟨hevents e he, (h.pending e he).2⟩
  window := h.window
  optimize b w hw hearly := h.optimize b w hw (Int.lt_of_le_of_lt hnow hearly)
  restore b w hw hlate := h.restore b w hw (Int.lt_of_le_of_lt hnow hlate)
  followed := h.followed
  covered b w hw hearly hlate := by
    by_cases hbegun : w.earliest ≤ st.now
    · cases h.covered b w hw hbegun (Int.lt_of_le_of_lt hnow hlate) with
      | inl hopt => exact .inl hopt
      | inr hcoming =>
        -- an event of the old time leaves no room
        obtain ⟨b', w', hw', hstart, hmem⟩ := hcoming
        obtain rfl : time = st.now := Int.le_antisymm (hevents _ hmem) hnow
        exact .inr ⟨b', w', hw', hstart, hmem⟩
    · have hmem := h.optimize b w hw (Int.not_le.mp hbegun)
      obtain rfl : w.earliest = time := Int.le_antisymm hearly (hevents _ hmem)
      exact .inr ⟨b, w, hw, rfl, hmem⟩
  normal := by
    rcases h.normal with hnormal | ⟨b, w, hw, hlate⟩ | ⟨b, w, hw, hend, hmem⟩
    · exact .inl hnormal
    · have hmem := h.restore b w hw hlate
      cases Int.lt_or_eq_of_le (hevents _ hmem) with
      | inl hlt' => exact .inr (.inl ⟨b, w, hw, hlt'⟩)
      | inr heq =>
        obtain rfl : w.latest = time := heq.symm
        exact .inr (.inr ⟨b, w, hw, rfl, hmem⟩)
    · obtain rfl : time = st.now := Int.le_antisymm (hevents _ hmem) hnow
      exact .inr (.inr ⟨b, w, hw, hend, hmem⟩)

theorem head_mem {e : Event Action} (h : st.events.events = e :: es) {x : Event Action}
    (hx : x ∈ st.events.events) (hne : x ≠ e) : x ∈ st.events.tail.events := by
  rw [h] at hx
  rw [EventQueue.tail_events h]
  exact (List.mem_cons.mp hx).resolve_left hne

theorem Sched.pop (h : Sched st) {e : Event Action} (he : st.events.events = e :: es)
    (htime : e.time = st.now) :
    Sched { st with events := st.events.tail } where
  now_nonneg := h.now_nonneg
  now_lt := h.now_lt
  pending x hx := h.pending x (List.mem_of_mem_tail hx)
  window := h.window
  optimize b w hw hearly := by
    refine head_mem he (h.optimize b w hw hearly) fun heq => ?_
    have heq' : w.earliest = e.time := congrArg Event.time heq
    exact absurd (heq'.trans htime) (Int.ne_of_gt hearly)
  restore b w hw hlate := by
    refine head_mem he (h.restore b w hw hlate) fun heq => ?_
    have heq' : w.latest = e.time := congrArg Event.time heq
    exact absurd (heq'.trans htime) (Int.ne_of_gt hlate)
  followed b w hw heq := by
    have hfollowed := h.followed b w hw heq
    rw [he] at hfollowed
    show EventQueue.Followed _ _ st.events.tail.events
    rw [EventQueue.tail_events he]
    exact hfollowed.2

/-- `optimize_network` does nothing when it is late, and else optimises the links. -/
theorem optimizeNetwork_cases (cfg : Config) (st : Topology) (b : Int) :
    ((∀ w, st.batchTimeMap.lookup b = some w → w.earliest < st.now) ∧
      st.optimizeNetwork cfg b = st) ∨
    ∃ w bandwidth delay, st.batchTimeMap.lookup b = some w ∧ st.now ≤ w.earliest ∧
      st.optimizeNetwork cfg b = { st with linkBandwidth := bandwidth, linkDelay := delay } ∧
      (st.optimizeNetwork cfg b).Optimized cfg := by
  unfold Topology.optimizeNetwork
  cases hw : st.batchTimeMap.lookup b with
  | none => exact .inl ⟨fun _ h => (nomatch h), rfl⟩
  | some w =>
    simp only
    split
    · next hlate => exact .inl ⟨fun w' hw' => Option.some.inj hw' ▸ hlate, rfl⟩
    · next hlate =>
      refine .inr ⟨w, ?_⟩
      unfold Topology.Optimized
      cases cfg.is_bandwidth_opt with
      | true | false => exact ⟨_, _, rfl, Int.not_lt.mp hlate, rfl, rfl⟩

theorem restoreNetwork_cases (cfg : Config) (st : Topology) (b : Int) :
    (¬ st.Restores b ∧ st.restoreNetwork cfg b = st) ∨
    ∃ bandwidth delay, st.Restores b ∧
      st.restoreNetwork cfg b = { st with linkBandwidth := bandwidth, linkDelay := delay } ∧
      (st.restoreNetwork cfg b).Normal cfg := by
  unfold Topology.restoreNetwork Topology.Restores
  cases hw : st.batchTimeMap.lookup b with
  | none => exact .inl ⟨fun ⟨_, h, _⟩ => (nomatch h), rfl⟩
  | some w =>
    simp only
    split
    · next hlate =>
      refine .inl ⟨?_, rfl⟩
      rintro ⟨w', hw', hend, -⟩
      cases hw'
      exact absurd hlate (Int.not_lt.mpr hend)
    · next hlate =>
      split
      · next hopen =>
        refine .inl ⟨?_, rfl⟩
        rintro ⟨w', -, -, hclosed⟩
        rw [hopen] at hclosed
        cases hclosed
      · next hopen =>
        have hrestores : ∃ w', some w = some w' ∧ w'.latest ≤ st.now ∧ st.otherOpen b = false :=
          ⟨w, rfl, Int.not_lt.mp hlate, Bool.eq_false_of_not_eq_true hopen⟩
        unfold Topology.Normal
        cases cfg.is_bandwidth_opt with
        | true | false => exact .inr ⟨_, _, hrestores, rfl, rfl⟩

/-- No other batch is in its window, as `restore_network` sees it. -/
theorem not_open (h : st.otherOpen b = false) (hne : b' ≠ b)
    (hw : st.batchTimeMap.lookup b' = some w) :
    ¬ (w.earliest < st.now ∧ w.latest > st.now) := by
  intro hopen
  have hmem : (⟨b', w⟩ : Sigma fun _ : Int => Window) ∈ st.batchTimeMap.entries :=
    AssocMap.mem_entries_iff.mpr hw
  have htest := List.any_eq_false.mp h _ hmem
  refine htest ?_
  simp only [Bool.and_eq_true, decide_eq_true_eq]
  exact ⟨hne, hopen⟩

theorem Inv.optimizeNetwork (h : Inv cfg st)
    (he : st.events.events = ⟨st.now, .optimizeNetwork b⟩ :: es) :
    Inv cfg (({ st with events := st.events.tail }).optimizeNetwork cfg b) := by
  have hsched := h.toSched.pop he rfl
  rcases optimizeNetwork_cases cfg { st with events := st.events.tail } b with
    ⟨hlate, heq⟩ | ⟨w, bandwidth, delay, hw, hearly, heq, hopt⟩
  · rw [heq]
    refine ⟨hsched, fun b' w' hw' hbegun hlate' => ?_, ?_⟩
    · cases h.covered b' w' hw' hbegun hlate' with
      | inl hopt => exact .inl hopt
      | inr hcoming =>
        obtain ⟨b₁, w₁, hw₁, hstart, hmem⟩ := hcoming
        refine .inr ⟨b₁, w₁, hw₁, hstart, head_mem he hmem fun heq' => ?_⟩
        cases heq'
        exact absurd hstart (Int.ne_of_lt (hlate w₁ hw₁))
    · rcases h.normal with hnormal | hopen | ⟨b₁, w₁, hw₁, hend, hmem⟩
      · exact .inl hnormal
      · exact .inr (.inl hopen)
      · exact .inr (.inr ⟨b₁, w₁, hw₁, hend, head_mem he hmem restore_ne_optimize⟩)
  · rw [heq] at hopt ⊢
    have hstart : st.now ≤ w.earliest := hearly
    refine ⟨⟨hsched.now_nonneg, hsched.now_lt, hsched.pending, hsched.window, hsched.optimize,
      hsched.restore, hsched.followed⟩, fun _ _ _ _ _ => .inl hopt, .inr ?_⟩
    -- the window is open, or empty and its end still to come
    have hwindow := (h.window b w hw).2.1
    cases Int.lt_or_eq_of_le (Int.le_trans hstart hwindow) with
    | inl hlt => exact .inl ⟨b, w, hw, hlt⟩
    | inr heq' =>
      refine .inr ⟨b, w, hw, heq'.symm, ?_⟩
      have hsame : w.earliest = w.latest := Int.le_antisymm hwindow (heq' ▸ hstart)
      have hfollowed := h.followed b w hw hsame
      rw [he, hsame, ← heq'] at hfollowed
      show _ ∈ st.events.tail.events
      rw [EventQueue.tail_events he]
      exact hfollowed.1 rfl

theorem Inv.restoreNetwork (h : Inv cfg st)
    (he : st.events.events = ⟨st.now, .restoreNetwork b⟩ :: es)
    (hfits : ({ st with events := st.events.tail } : Topology).Restores b →
      ∀ b' w, st.batchTimeMap.lookup b' = some w → w.earliest = st.now → st.now < w.latest →
        ({ st with events := st.events.tail } : Topology).Coming) :
    Inv cfg (({ st with events := st.events.tail }).restoreNetwork cfg b) := by
  have hsched := h.toSched.pop he rfl
  rcases restoreNetwork_cases cfg { st with events := st.events.tail } b with
    ⟨hnot, heq⟩ | ⟨bandwidth, delay, hrestores, heq, hnormal⟩
  · rw [heq]
    refine ⟨hsched, fun b' w' hw' hbegun hlate' => ?_, ?_⟩
    · cases h.covered b' w' hw' hbegun hlate' with
      | inl hopt => exact .inl hopt
      | inr hcoming =>
        obtain ⟨b₁, w₁, hw₁, hstart, hmem⟩ := hcoming
        exact .inr ⟨b₁, w₁, hw₁, hstart, head_mem he hmem restore_ne_optimize.symm⟩
    · rcases h.normal with hnormal | hopen | ⟨b₁, w₁, hw₁, hend, hmem⟩
      · exact .inl hnormal
      · exact .inr (.inl hopen)
      · by_cases hsame : b₁ = b
        · -- the window has ended: another one is open
          subst hsame
          cases hopen : ({ st with events := st.events.tail } : Topology).otherOpen b₁ with
          | false => exact absurd ⟨w₁, hw₁, Int.le_of_eq hend, hopen⟩ hnot
          | true =>
            obtain ⟨it, hit, htest⟩ := List.any_eq_true.mp hopen
            simp only [Bool.and_eq_true, decide_eq_true_eq] at htest
            exact .inr (.inl ⟨it.1, it.2, AssocMap.mem_entries_iff.mp hit, htest.2.2⟩)
        · refine .inr (.inr ⟨b₁, w₁, hw₁, hend, head_mem he hmem fun heq' => hsame ?_⟩)
          cases heq'
          rfl
  · rw [heq] at hnormal ⊢
    refine ⟨⟨hsched.now_nonneg, hsched.now_lt, hsched.pending, hsched.window, hsched.optimize,
      hsched.restore, hsched.followed⟩, fun b' w' hw' hbegun hlate => ?_, .inl hnormal⟩
    obtain ⟨w, hw, hend, hclosed⟩ := hrestores
    have hne : b' ≠ b := by
      rintro rfl
      cases hw.symm.trans hw'
      exact absurd hlate (Int.not_lt.mpr hend)
    have hstart : w'.earliest = st.now := by
      cases Int.lt_or_eq_of_le hbegun with
      | inl hlt => exact absurd ⟨hlt, hlate⟩ (not_open hclosed hne hw')
      | inr heq' => exact heq'
    exact .inr (hfits ⟨w, hw, hend, hclosed⟩ b' w' hw' hstart hlate)

/-! ## 3. Predictions -/

theorem lookup_setWindow {w' : Window} : (st.setWindow b w).batchTimeMap.lookup b' = some w' ↔
      (b' = b ∧ w' = w) ∨ (b' ≠ b ∧ st.batchTimeMap.lookup b' = some w') := by
  unfold Topology.setWindow
  by_cases hb : b' = b
  · subst hb
    simp only [AList.lookup_insert, Option.some.injEq, true_and, ne_eq, not_true_eq_false,
      false_and, or_false]
    exact eq_comm
  · simp only [AList.lookup_insert_ne hb, hb, false_and, ne_eq, not_false_eq_true, true_and,
      false_or]

/-- A topology with the window of one batch changed and more events. -/
structure Extends (st st' : Topology) (b : Int) (w : Window) : Prop where
  now : st'.now = st.now
  map : st'.batchTimeMap = (st.setWindow b w).batchTimeMap
  events : ∀ e ∈ st.events.events, e ∈ st'.events.events
  linkBandwidth : st'.linkBandwidth = st.linkBandwidth
  linkDelay : st'.linkDelay = st.linkDelay

section

variable (h : Extends st st' b w)
include h

theorem Extends.lookup {w' : Window} :
    st'.batchTimeMap.lookup b' = some w' ↔
      (b' = b ∧ w' = w) ∨ (b' ≠ b ∧ st.batchTimeMap.lookup b' = some w') := by
  rw [h.map]
  exact lookup_setWindow

theorem Extends.normal : st'.Normal cfg ↔ st.Normal cfg := by
  unfold Topology.Normal
  rw [h.linkBandwidth, h.linkDelay]

/-- What covers a window still does, as long as a window that begins now begins now. -/
theorem Extends.covered
    (hstart : ∀ w₀, st.batchTimeMap.lookup b = some w₀ → w₀.earliest = st.now →
      w.earliest = st.now) (hcovered : st.Optimized cfg ∨ st.Coming) :
    st'.Optimized cfg ∨ st'.Coming := by
  cases hcovered with
  | inl hopt =>
    refine .inl ?_
    unfold Topology.Optimized at hopt ⊢
    rw [h.linkBandwidth, h.linkDelay]
    exact hopt
  | inr hcoming =>
    obtain ⟨b₁, w₁, hw₁, hearly, hmem⟩ := hcoming
    rw [← h.now] at hmem
    by_cases hb : b₁ = b
    · subst hb
      exact .inr ⟨b₁, w, h.lookup.mpr (.inl ⟨rfl, rfl⟩), (hstart w₁ hw₁ hearly).trans h.now.symm,
        h.events _ hmem⟩
    · exact .inr ⟨b₁, w₁, h.lookup.mpr (.inr ⟨hb, hw₁⟩), hearly.trans h.now.symm, h.events _ hmem⟩

/-- The invariant, with the window of one batch changed: what remains to be shown
is about this window only. -/
theorem Extends.inv (hinv : Inv cfg st)
    (hpending : ∀ e ∈ st'.events.events, e ∈ st.events.events ∨ (st.now ≤ e.time ∧ e.time < 2 ^ 63))
    (hwindow : 0 ≤ w.earliest ∧ w.earliest ≤ w.latest ∧ w.latest < 2 ^ 63)
    (hoptimize : st.now < w.earliest → ⟨w.earliest, .optimizeNetwork b⟩ ∈ st'.events.events)
    (hrestore : st.now < w.latest → ⟨w.latest, .restoreNetwork b⟩ ∈ st'.events.events)
    (hfollowed : w.earliest = w.latest → EventQueue.Followed ⟨w.earliest, .optimizeNetwork b⟩
      ⟨w.latest, .restoreNetwork b⟩ st'.events.events)
    (hothers : ∀ b' w', b' ≠ b → ∀ t, EventQueue.Followed ⟨t, .optimizeNetwork b'⟩ w'
      st.events.events → EventQueue.Followed ⟨t, .optimizeNetwork b'⟩ w' st'.events.events)
    (hstart : ∀ w₀, st.batchTimeMap.lookup b = some w₀ → w₀.earliest = st.now → w.earliest = st.now)
    (hcovered : w.earliest ≤ st.now → st.now < w.latest → st'.Optimized cfg ∨ st'.Coming)
    (hlatest : ∀ w₀, st.batchTimeMap.lookup b = some w₀ → w₀.latest = w.latest ∨
      st.now < w.latest ∨ w₀.latest < st.now) : Inv cfg st' where
  now_nonneg := h.now ▸ hinv.now_nonneg
  now_lt := h.now ▸ hinv.now_lt
  pending e he := by
    rw [h.now]
    exact (hpending e he).elim (hinv.pending e) id
  window b' w' hw' := by
    rcases h.lookup.mp hw' with ⟨rfl, rfl⟩ | ⟨-, hold⟩
    · exact hwindow
    · exact hinv.window b' w' hold
  optimize b' w' hw' hearly := by
    rw [h.now] at hearly
    rcases h.lookup.mp hw' with ⟨rfl, rfl⟩ | ⟨-, hold⟩
    · exact hoptimize hearly
    · exact h.events _ (hinv.optimize b' w' hold hearly)
  restore b' w' hw' hlate := by
    rw [h.now] at hlate
    rcases h.lookup.mp hw' with ⟨rfl, rfl⟩ | ⟨-, hold⟩
    · exact hrestore hlate
    · exact h.events _ (hinv.restore b' w' hold hlate)
  followed b' w' hw' hempty := by
    rcases h.lookup.mp hw' with ⟨rfl, rfl⟩ | ⟨hne, hold⟩
    · exact hfollowed hempty
    · exact hothers b' _ hne _ (hinv.followed b' w' hold hempty)
  covered b' w' hw' hbegun hlate := by
    rw [h.now] at hbegun hlate
    rcases h.lookup.mp hw' with ⟨rfl, rfl⟩ | ⟨-, hold⟩
    · exact hcovered hbegun hlate
    · exact h.covered hstart (hinv.covered b' w' hold hbegun hlate)
  normal := by
    rw [h.normal, h.now]
    -- the batch whose window is open or just ending may be the one that changes
    rcases hinv.normal with hnormal | ⟨b₁, w₁, hw₁, hlate⟩ | ⟨b₁, w₁, hw₁, hend, hmem⟩
    · exact .inl hnormal
    · refine .inr (.inl ?_)
      by_cases hb : b₁ = b
      · subst hb
        refine ⟨b₁, w, h.lookup.mpr (.inl ⟨rfl, rfl⟩), ?_⟩
        rcases hlatest w₁ hw₁ with heq | hlt | hlt <;> omega
      · exact ⟨b₁, w₁, h.lookup.mpr (.inr ⟨hb, hw₁⟩), hlate⟩
    · by_cases hb : b₁ = b
      · subst hb
        rcases hlatest w₁ hw₁ with heq | hlt | hlt
        · exact .inr (.inr ⟨b₁, w, h.lookup.mpr (.inl ⟨rfl, rfl⟩), heq ▸ hend, h.events _ hmem⟩)
        · exact .inr (.inl ⟨b₁, w, h.lookup.mpr (.inl ⟨rfl, rfl⟩), hlt⟩)
        · omega
      · exact .inr (.inr ⟨b₁, w₁, h.lookup.mpr (.inr ⟨hb, hw₁⟩), hend, h.events _ hmem⟩)

end

theorem Inv.openWindow (h : Inv cfg st) (hnew : st.batchTimeMap.lookup b = none) {start latest : Int}
    (hnow : st.now ≤ start) (hle : start ≤ latest) (hlt : latest < 2 ^ 63) :
    Inv cfg { st.setWindow b ⟨start, latest⟩ with
      events := (st.events.schedule ⟨start, .optimizeNetwork b⟩).schedule
        ⟨latest, .restoreNetwork b⟩ } := by
  have hnone : ∀ {P : Window → Prop} w₀, st.batchTimeMap.lookup b = some w₀ → P w₀ := by
    intro P w₀ hw₀
    rw [hnew] at hw₀
    cases hw₀
  have hext : Extends st { st.setWindow b ⟨start, latest⟩ with
      events := (st.events.schedule ⟨start, .optimizeNetwork b⟩).schedule
        ⟨latest, .restoreNetwork b⟩ } b ⟨start, latest⟩ :=
    ⟨rfl, rfl, fun e he => EventQueue.mem_schedule.mpr (.inr (EventQueue.mem_schedule.mpr (.inr he))),
      rfl, rfl⟩
  refine hext.inv h ?_ ⟨Int.le_trans h.now_nonneg hnow, hle, hlt⟩ ?_ ?_ ?_ ?_ hnone ?_ hnone
  · intro e he
    simp only [EventQueue.mem_schedule] at he
    rcases he with rfl | rfl | he
    · exact .inr ⟨Int.le_trans hnow hle, hlt⟩
    · exact .inr ⟨hnow, Int.lt_of_le_of_lt hle hlt⟩
    · exact .inl he
  · exact fun _ => EventQueue.mem_schedule.mpr (.inr (EventQueue.mem_schedule.mpr (.inl rfl)))
  · exact fun _ => EventQueue.mem_schedule.mpr (.inl rfl)
  · exact fun _ => EventQueue.followed_insertEvent_self (EventQueue.schedule _ _).sorted hle
      restore_ne_optimize
  · intro b' e hne t hfollowed
    refine (hfollowed.insertEvent fun heq => ?_).insertEvent restore_ne_optimize
    cases heq
    exact hne rfl
  · intro hbegun _
    have hstart : start = st.now := Int.le_antisymm hbegun hnow
    refine .inr ⟨b, _, hext.lookup.mpr (.inl ⟨rfl, rfl⟩), hstart, ?_⟩
    exact EventQueue.mem_schedule.mpr (.inr (EventQueue.mem_schedule.mpr (.inl (hstart ▸ rfl))))

theorem Inv.lowerEarliest (h : Inv cfg st) (hw : st.batchTimeMap.lookup b = some w) {start : Int}
    (hnow : st.now ≤ start) (hlt : start < w.earliest) :
    Inv cfg { st.setWindow b ⟨start, w.latest⟩ with
      events := st.events.schedule ⟨start, .optimizeNetwork b⟩ } := by
  obtain ⟨-, hle, hmax⟩ := h.window b w hw
  have hext : Extends st { st.setWindow b ⟨start, w.latest⟩ with
      events := st.events.schedule ⟨start, .optimizeNetwork b⟩ } b ⟨start, w.latest⟩ :=
    ⟨rfl, rfl, fun e he => EventQueue.mem_schedule.mpr (.inr he), rfl, rfl⟩
  refine hext.inv h ?_ ⟨Int.le_trans h.now_nonneg hnow, Int.le_trans (Int.le_of_lt hlt) hle, hmax⟩
    ?_ ?_ ?_ ?_ ?_ ?_ ?_
  · intro e he
    cases EventQueue.mem_schedule.mp he with
    | inl heq =>
      exact .inr (heq ▸ ⟨hnow, Int.lt_trans hlt (Int.lt_of_le_of_lt hle hmax)⟩)
    | inr hmem => exact .inl hmem
  · exact fun _ => EventQueue.mem_schedule.mpr (.inl rfl)
  · exact fun hlate => EventQueue.mem_schedule.mpr (.inr (h.restore b w hw hlate))
  · exact fun hempty => absurd hempty (Int.ne_of_lt (Int.lt_of_lt_of_le hlt hle))
  · intro b' e hne t hfollowed
    refine hfollowed.insertEvent fun heq => ?_
    cases heq
    exact hne rfl
  · intro w₀ hw₀ hstart
    cases hw.symm.trans hw₀
    exact absurd hstart (Int.ne_of_gt (Int.lt_of_le_of_lt hnow hlt))
  · intro hbegun _
    have hstart : start = st.now := Int.le_antisymm hbegun hnow
    refine .inr ⟨b, _, hext.lookup.mpr (.inl ⟨rfl, rfl⟩), hstart, ?_⟩
    exact EventQueue.mem_schedule.mpr (.inl (hstart ▸ rfl))
  · intro w₀ hw₀
    cases hw.symm.trans hw₀
    exact .inl rfl

/-- A window ends later; if it had ended, something covers it again. -/
theorem Inv.raiseLatest (h : Inv cfg st) (hw : st.batchTimeMap.lookup b = some w) {latest : Int}
    (hlt : w.latest < latest) (hnow : st.now ≤ latest) (hmax : latest < 2 ^ 63)
    (hcovered : w.latest ≤ st.now → st.now < latest → st.Optimized cfg ∨ st.Coming) :
    Inv cfg { st.setWindow b ⟨w.earliest, latest⟩ with
      events := st.events.schedule ⟨latest, .restoreNetwork b⟩ } := by
  obtain ⟨hpos, hle, -⟩ := h.window b w hw
  have hsame : ∀ w₀, st.batchTimeMap.lookup b = some w₀ → w₀.earliest = st.now →
      w.earliest = st.now := by
    intro w₀ hw₀ hstart
    cases hw.symm.trans hw₀
    exact hstart
  have hext : Extends st { st.setWindow b ⟨w.earliest, latest⟩ with
      events := st.events.schedule ⟨latest, .restoreNetwork b⟩ } b ⟨w.earliest, latest⟩ :=
    ⟨rfl, rfl, fun e he => EventQueue.mem_schedule.mpr (.inr he), rfl, rfl⟩
  refine hext.inv h ?_ ⟨hpos, Int.le_trans hle (Int.le_of_lt hlt), hmax⟩ ?_ ?_ ?_ ?_ hsame ?_ ?_
  · intro e he
    cases EventQueue.mem_schedule.mp he with
    | inl heq => exact .inr (heq ▸ ⟨hnow, hmax⟩)
    | inr hmem => exact .inl hmem
  · exact fun hearly => EventQueue.mem_schedule.mpr (.inr (h.optimize b w hw hearly))
  · exact fun _ => EventQueue.mem_schedule.mpr (.inl rfl)
  · exact fun hempty => absurd hempty (Int.ne_of_lt (Int.lt_of_le_of_lt hle hlt))
  · exact fun b' e _ t hfollowed => hfollowed.insertEvent restore_ne_optimize
  · intro hbegun hlate
    refine hext.covered hsame ?_
    by_cases hended : w.latest ≤ st.now
    · exact hcovered hended hlate
    · exact h.covered b w hw hbegun (Int.not_le.mp hended)
  · intro w₀ hw₀
    cases hw.symm.trans hw₀
    cases Int.lt_or_eq_of_le hnow with
    | inl hlt' => exact .inr (.inl hlt')
    | inr heq => exact .inr (.inr (heq ▸ hlt))

/-! ## 4. Runs -/

theorem schedule_sub {time : Int} {action : Action}
    (h : st.schedule (time - st.now) action = some st') :
    st.now ≤ time ∧ st' = { st with events := st.events.schedule ⟨time, action⟩ } := by
  unfold Topology.schedule at h
  split at h
  · next hpos =>
    rw [add_sub_cancel] at h
    exact ⟨Int.sub_nonneg.mp hpos, (Option.some.inj h).symm⟩
  · cases h

theorem int64_of_lt {n : Int} (hneg : -2 ^ 63 ≤ n) (hlt : n < 2 ^ 63) : int64 n = n := by
  unfold int64
  rw [Int.bmod_eq_of_le] <;> omega

/-- A conversion to a signed integer that is not negative changed nothing. -/
theorem int64_nonneg {n : Int} (hpos : 0 ≤ n) (hlt : n < 2 ^ 64) (h : 0 ≤ int64 n) :
    n < 2 ^ 63 ∧ int64 n = n := by
  have hmod : n % (2 ^ 64 : Nat) = n := Int.emod_eq_of_lt hpos hlt
  unfold int64 at h ⊢
  rw [Int.bmod_def, hmod] at h ⊢
  split at h
  · omega
  · omega

theorem uint64_spec (n : Int) : 0 ≤ uint64 n ∧ uint64 n < 2 ^ 64 :=
  ⟨Int.emod_nonneg n (by decide), Int.emod_lt_of_pos n (by decide)⟩

theorem schedule_int64_sub {time : Int} {action : Action} (hnow : 0 ≤ st.now ∧ st.now < 2 ^ 63)
    (htime : 0 ≤ time ∧ time < 2 ^ 63)
    (h : st.schedule (int64 (time - st.now)) action = some st') :
    st.now ≤ time ∧ st' = { st with events := st.events.schedule ⟨time, action⟩ } := by
  rw [int64_of_lt (by omega) (by omega)] at h
  exact schedule_sub h

theorem Inv.recordEnd (h : Inv cfg st) (hw : st.batchTimeMap.lookup b = some w)
    {comm_end_time : Int} (hend : 0 ≤ comm_end_time ∧ comm_end_time < 2 ^ 64)
    (hle : 0 ≤ int64 comm_end_time)
    (hcovered : w.latest ≤ st.now → st.now < int64 comm_end_time → st.Optimized cfg ∨ st.Coming)
    (hrecord : st.recordEnd b w comm_end_time = some st') :
    Inv cfg st' := by
  obtain ⟨hpos, hwle, hwlt⟩ := h.window b w hw
  have hunsigned : uint64 w.latest = w.latest :=
    Int.emod_eq_of_lt (Int.le_trans hpos hwle) (Int.lt_trans hwlt (by decide))
  obtain ⟨hlt, hsame⟩ := int64_nonneg hend.1 hend.2 hle
  rw [Topology.recordEnd, hunsigned, hsame] at hrecord
  rw [hsame] at hcovered
  split at hrecord
  · next hlater =>
    obtain ⟨hnow, rfl⟩ := schedule_int64_sub (by exact ⟨h.now_nonneg, h.now_lt⟩) ⟨hend.1, hlt⟩ hrecord
    exact h.raiseLatest hw hlater hnow hlt hcovered
  · next hearlier =>
    obtain rfl := Option.some.inj hrecord
    exact h

theorem Inv.record (h : Inv cfg st) {start comm_end_time : Int}
    (hend : 0 ≤ comm_end_time ∧ comm_end_time < 2 ^ 64) (hle : start ≤ int64 comm_end_time)
    (hfits : ∀ w, st.batchTimeMap.lookup b = some w → w.latest ≤ st.now →
      st.now < int64 comm_end_time → st.Optimized cfg ∨ st.Coming)
    (hrecord : st.record b start comm_end_time = some st') : Inv cfg st' := by
  unfold Topology.record at hrecord
  cases hw : st.batchTimeMap.lookup b with
  | none =>
    simp only [hw, Option.bind_eq_bind, Option.bind_eq_some_iff] at hrecord
    obtain ⟨st₁, hopt, hrest⟩ := hrecord
    obtain ⟨hstart, rfl⟩ := schedule_sub hopt
    have hstart' : st.now ≤ start := hstart
    obtain ⟨hlt, hsame⟩ := int64_nonneg hend.1 hend.2
      (Int.le_trans h.now_nonneg (Int.le_trans hstart' hle))
    obtain ⟨-, rfl⟩ := schedule_int64_sub (by exact ⟨h.now_nonneg, h.now_lt⟩) ⟨hend.1, hlt⟩ hrest
    rw [hsame] at hle
    simp only [hsame]
    exact h.openWindow hw hstart' hle hlt
  | some w =>
    obtain ⟨hpos, hwle, -⟩ := h.window b w hw
    simp only [hw, Option.bind_eq_bind, Option.bind_eq_some_iff] at hrecord
    obtain ⟨st₁, hbegin, hrest⟩ := hrecord
    unfold Topology.recordBegin at hbegin
    split at hbegin
    · next hearlier =>
      rw [Int.min_eq_right (Int.le_of_lt hearlier)] at hrest
      obtain ⟨hstart, rfl⟩ := schedule_sub hbegin
      have hstart' : st.now ≤ start := hstart
      have hlowered := h.lowerEarliest hw hstart' hearlier
      refine hlowered.recordEnd ?_ hend (Int.le_trans h.now_nonneg (Int.le_trans hstart' hle))
        (fun hended _ => ?_) hrest
      · exact lookup_setWindow.mpr (.inl ⟨rfl, rfl⟩)
      · -- the window has not begun
        have hended' : w.latest ≤ st.now := hended
        omega
    · next hnot =>
      rw [Int.min_eq_left (Int.not_lt.mp hnot)] at hrest
      obtain rfl := Option.some.inj hbegin
      exact h.recordEnd hw hend (by omega) (hfits w hw) hrest

theorem Inv.step (h : Inv cfg st) {op : Op} (hfits : st.Fits cfg op)
    (hstep : st.step cfg op = some st') : Inv cfg st' := by
  cases op with
  | predict b comm_begin_time comm_size =>
    simp only [Topology.step, Topology.predictionCallback] at hstep
    split at hstep
    · obtain rfl := Option.some.inj hstep
      exact h
    · next hlate =>
      obtain ⟨hle, hcovered⟩ := hfits (Int.not_lt.mp hlate)
      exact h.record (uint64_spec _) hle hcovered hstep
  | next =>
    simp only [Topology.step] at hstep
    split at hstep
    · cases hstep
    · next e es he =>
      obtain rfl := Option.some.inj hstep
      have hmem : e ∈ st.events.events := he ▸ List.mem_cons_self
      have hhead : ∀ x ∈ st.events.events, e.time ≤ x.time := fun x hx =>
        EventQueue.le_of_head he hx
      have hinv := h.pass (h.pending e hmem).1 (h.pending e hmem).2 hhead
      obtain ⟨time, action⟩ := e
      cases action with
      | optimizeNetwork b => exact hinv.optimizeNetwork he
      | restoreNetwork b =>
        refine hinv.restoreNetwork he fun hrestores b' w hw hstart hlate => ?_
        exact hfits ⟨time, .restoreNetwork b⟩ b (congrArg List.head? he) rfl hrestores b' w hw hstart
          hlate
  | pass time =>
    simp only [Topology.step] at hstep
    split at hstep
    · next hpass =>
      obtain rfl := Option.some.inj hstep
      exact h.pass hpass.1 hpass.2.1 hpass.2.2
    · cases hstep

theorem Run.inv (h : Run cfg (fun st op => st.Fits cfg op) st) : Inv cfg st := by
  induction h with
  | init => exact inv_init cfg
  | step op _ hfits hstep ih => exact ih.step hfits hstep

/-- In a run of steps that do no harm the links are optimised in every window and
normal after the last, whenever the events of the time have run. -/
theorem optimized_of_fits {cfg : Config} {st : Topology}
    (h : Run cfg (fun st op => st.Fits cfg op) st) (hsettled : st.Settled) : st.Right cfg := by
  have hinv := h.inv
  refine ⟨fun b w hw hbegun hlate => ?_, fun hended => ?_⟩
  · cases hinv.covered b w hw hbegun hlate with
    | inl hopt => exact hopt
    | inr hcoming =>
      obtain ⟨b', w', -, -, hmem⟩ := hcoming
      exact absurd (hsettled _ hmem) (Int.lt_irrefl _)
  · rcases hinv.normal with hnormal | ⟨b, w, hw, hlate⟩ | ⟨b, w, -, -, hmem⟩
    · exact hnormal
    · exact absurd (hended b w hw) (Int.not_le.mpr hlate)
    · exact absurd (hsettled _ hmem) (Int.lt_irrefl _)

/-- The fat tree of four ports, with 16 servers. -/
def fattree4 : Config := fattreeTopology 4 "1Gbps" "1us" "100Gbps" 1000000

/-- One batch from 1 ms: the links are optimised then. -/
theorem optimized_of_fits_one :
    ∃ st : Topology, st.now = 1000000 ∧ st.batchTimeMap.lookup 1 = some ⟨1000000, 2600000⟩ ∧
      st.Right fattree4 := by
  refine ⟨_, rfl, rfl, optimized_of_fits (Run.step .next (Run.step (.predict 1 1000000 625000)
    Run.init ?_ rfl) ?_ rfl) ?_⟩
  · exact fun _ => ⟨by decide, fun w hw => (nomatch hw)⟩
  · intro e b he hwhat
    cases he
    cases hwhat
  · unfold Topology.Settled
    decide

/-- Two batches, the second from the end of the first and predicted before it: the
end of the first restores the links just optimised for the second. -/
theorem restored_too_soon :
    ¬ ∀ (cfg : Config) (st : Topology), Run cfg (fun _ _ => True) st → st.Settled →
      st.Right cfg := by
  intro hall
  have h₁ : Run fattree4 (fun _ _ => True) _ := Run.step (.predict 2 2600000 625000) Run.init trivial rfl
  have h₂ : Run fattree4 (fun _ _ => True) _ := Run.step (.predict 1 1000000 625000) h₁ trivial rfl
  have h₃ : Run fattree4 (fun _ _ => True) _ := Run.step .next h₂ trivial rfl
  have h₄ : Run fattree4 (fun _ _ => True) _ := Run.step .next h₃ trivial rfl
  have h₅ : Run fattree4 (fun _ _ => True) _ := Run.step .next h₄ trivial rfl
  have hopt : "1Gbps" = "100Gbps" := (hall fattree4 _ h₅ (by unfold Topology.Settled; decide)).1 2
    ⟨2600000, 4200000⟩ rfl (by decide) (by decide)
  exact absurd hopt (by decide)

end MoeJit.BatchWindows
