import MoeJit.Lib.GuardedRun
import MoeJit.Lib.ReorderBuffer
import MoeJit.Wifi.BlockAckWindow

/-!
# The reordering buffer of the recipient of a Block Ack agreement

MPDUs are buffered in a map that is sorted by their distance from `WinStartB`, and passed up in the
order of their sequence numbers. An MPDU beyond the window moves the window to end with it. The new
`WinStartB` is computed without a reduction modulo 4096, and is no sequence number when the window
then begins before number 0. From there on nothing is passed up.

The observer of a run counts how far `WinStartB` has been moved, so that the MPDUs of a call have
numbers that do not begin again: `Ordered` is what holds as long as the window is never moved to begin
before number 0 (`ordered_iff_no_underflow`). Up to there, the agreement is the reordering
of a line of numbers (`Follows`).
-/

namespace MoeJit.Wifi

open Circle ReorderBuffer List
open BlockAckWindow (getWinSize_advance getWinSize_of_setAt setAt_isSome)

/-! ## 1. Model -/

structure Mpdu where
  uid : Nat
  sequenceNumber : SequenceNumber
  deriving DecidableEq

structure RecipientBlockAckAgreement where
  scoreboard : BlockAckWindow
  winStartB : Nat
  winSizeB : Nat
  /-- In the order of the map. -/
  bufferedMpdus : List Mpdu
  deriving DecidableEq

namespace RecipientBlockAckAgreement

/-- The constructor. -/
def init (bufferSize : Nat) (startingSeq : SequenceNumber) : RecipientBlockAckAgreement where
  scoreboard := .init startingSeq bufferSize
  winStartB := startingSeq
  winSizeB := bufferSize
  bufferedMpdus := []

/-- `Compare`, in the arithmetic of `int`. -/
def compare (winStartB : Nat) (a b : SequenceNumber) : Prop :=
  ((a : Int) - winStartB + seqnoSpaceSize).tmod seqnoSpaceSize <
    ((b : Int) - winStartB + seqnoSpaceSize).tmod seqnoSpaceSize
  deriving Decidable

/-- Insertion into the map, which does nothing when there is an equal key. -/
def insert (winStartB : Nat) (mpdu : Mpdu) : List Mpdu → List Mpdu
  | [] => [mpdu]
  | m :: rest =>
    if compare winStartB mpdu.sequenceNumber m.sequenceNumber then mpdu :: m :: rest
    else if compare winStartB m.sequenceNumber mpdu.sequenceNumber then
      m :: insert winStartB mpdu rest
    else m :: rest

def store (agreement : RecipientBlockAckAgreement) (mpdu : Mpdu) : RecipientBlockAckAgreement :=
  { agreement with bufferedMpdus := insert agreement.winStartB mpdu agreement.bufferedMpdus }

/-- The loop of `PassBufferedMpdusUntilFirstLost`: the new `WinStartB`, what is passed and what is
left. -/
def untilFirstLost (winStartB : Nat) : List Mpdu → Nat × List Mpdu × List Mpdu
  | [] => (winStartB, [], [])
  | m :: rest =>
    if m.sequenceNumber = winStartB then
      let (start, passed, left) := untilFirstLost ((winStartB + 1) % seqnoSpaceSize) rest
      (start, m :: passed, left)
    else (winStartB, [], m :: rest)

def passBufferedMpdusUntilFirstLost (agreement : RecipientBlockAckAgreement) :
    RecipientBlockAckAgreement × List Mpdu :=
  let (winStartB, passed, bufferedMpdus) :=
    untilFirstLost agreement.winStartB agreement.bufferedMpdus
  ({ agreement with winStartB, bufferedMpdus }, passed)

def passBufferedMpdusWithSeqNumberLessThan (agreement : RecipientBlockAckAgreement)
    (newWinStartB : Nat) : RecipientBlockAckAgreement × List Mpdu :=
  let less := fun m : Mpdu => decide (getDistance m.sequenceNumber agreement.winStartB <
    getDistance newWinStartB agreement.winStartB)
  ({ agreement with
      winStartB := newWinStartB
      bufferedMpdus := agreement.bufferedMpdus.dropWhile less },
    agreement.bufferedMpdus.takeWhile less)

/-- The window begins at the new number, and then after what has no gap. -/
def moveTo (agreement : RecipientBlockAckAgreement) (newWinStartB : Nat) :
    RecipientBlockAckAgreement × List Mpdu :=
  let (agreement, before) := agreement.passBufferedMpdusWithSeqNumberLessThan newWinStartB
  let (agreement, following) := agreement.passBufferedMpdusUntilFirstLost
  (agreement, before ++ following)

/-- The new `WinStartB` for an MPDU beyond the window, cut to 16 bits. -/
def newWinStartB (agreement : RecipientBlockAckAgreement) (sequenceNumber : SequenceNumber) : Nat :=
  toUint16 (toSizeT ((sequenceNumber : Int) - agreement.winSizeB + 1))

/-- What `NotifyReceivedMpdu` does to the scoreboard. -/
def markReceived (scoreboard : BlockAckWindow) (mpdu : Mpdu) : Option BlockAckWindow :=
  let distance := toUint16 (getDistance mpdu.sequenceNumber scoreboard.winStart)
  if distance < scoreboard.getWinSize then scoreboard.setAt distance
  else if distance < seqnoSpaceHalfSize then
    let advanced := scoreboard.advance (distance - scoreboard.getWinSize + 1)
    advanced.setAt (advanced.getWinSize - 1)
  else some scoreboard

/-- What `NotifyReceivedMpdu` does to the buffer, with what it passes up. -/
def reorder (agreement : RecipientBlockAckAgreement) (mpdu : Mpdu) :
    RecipientBlockAckAgreement × List Mpdu :=
  let distance := toUint16 (getDistance mpdu.sequenceNumber agreement.winStartB)
  if distance < agreement.winSizeB then (agreement.store mpdu).passBufferedMpdusUntilFirstLost
  else if distance < seqnoSpaceHalfSize then
    (agreement.store mpdu).moveTo (agreement.newWinStartB mpdu.sequenceNumber)
  else (agreement, [])

/-- There is no result when the scoreboard has no bits and one of them is set. -/
def notifyReceivedMpdu (agreement : RecipientBlockAckAgreement) (mpdu : Mpdu) :
    Option (RecipientBlockAckAgreement × List Mpdu) :=
  (markReceived agreement.scoreboard mpdu).map fun scoreboard =>
    reorder { agreement with scoreboard } mpdu

/-- What `NotifyReceivedBar` does to the scoreboard. -/
def scoreboardFrom (scoreboard : BlockAckWindow) (startingSequenceNumber : Nat) : BlockAckWindow :=
  let distance := toUint16 (getDistance startingSequenceNumber scoreboard.winStart)
  if 0 < distance ∧ distance < scoreboard.getWinSize then scoreboard.advance distance
  else if 0 < distance ∧ distance < seqnoSpaceHalfSize then
    scoreboard.reset startingSequenceNumber
  else scoreboard

def notifyReceivedBar (agreement : RecipientBlockAckAgreement)
    (startingSequenceNumber : SequenceNumber) : RecipientBlockAckAgreement × List Mpdu :=
  let agreement :=
    { agreement with scoreboard := scoreboardFrom agreement.scoreboard startingSequenceNumber }
  let distance := toUint16 (getDistance startingSequenceNumber agreement.winStartB)
  if 0 < distance ∧ distance < seqnoSpaceHalfSize then agreement.moveTo startingSequenceNumber
  else (agreement, [])

end RecipientBlockAckAgreement

/-! ## 2. The observer -/

inductive Call
  | mpdu (mpdu : Mpdu)
  | bar (startingSequenceNumber : SequenceNumber)
  deriving DecidableEq

def Call.received : Call → List Mpdu
  | .mpdu m => [m]
  | .bar _ => []

def RecipientBlockAckAgreement.notify (agreement : RecipientBlockAckAgreement) :
    Call → Option (RecipientBlockAckAgreement × List Mpdu)
  | .mpdu mpdu => agreement.notifyReceivedMpdu mpdu
  | .bar startingSequenceNumber => some (agreement.notifyReceivedBar startingSequenceNumber)

/-- What has been seen of an agreement: how far `WinStartB` is on the line, and the MPDUs that have
been passed up, with their numbers on the line. -/
structure Reception where
  agreement : RecipientBlockAckAgreement
  travelled : Nat
  passed : List (Nat × Mpdu) := []
  received : List Mpdu := []
  deriving DecidableEq

namespace Reception

/-- The numbers on the line are those at which `WinStartB` was, and the distances from it. -/
def after (r : Reception) (call : Call) (result : RecipientBlockAckAgreement × List Mpdu) :
    Reception where
  agreement := result.1
  travelled := r.travelled + getDistance result.1.winStartB r.agreement.winStartB
  passed := r.passed ++ result.2.map fun m =>
    (r.travelled + getDistance m.sequenceNumber r.agreement.winStartB, m)
  received := r.received ++ call.received

def init (bufferSize : Nat) (startingSeq : SequenceNumber) : Reception where
  agreement := .init bufferSize startingSeq
  travelled := startingSeq

/-- The next call, if the ones before it have returned. -/
def next (r : Option Reception) (call : Call) : Option Reception :=
  r.bind fun r => (r.agreement.notify call).map (r.after call)

/-- The state after the calls. -/
def run (bufferSize : Nat) (startingSeq : SequenceNumber) (calls : List Call) : Option Reception :=
  calls.foldl next (some (init bufferSize startingSeq))

end Reception

/-- What is promised of the reordering. The numbers of the MPDUs passed up increase, are their
sequence numbers modulo 4096 and lie before `WinStartB`. -/
structure Ordered (r : Reception) : Prop where
  start_lt : r.agreement.winStartB < seqnoSpaceSize
  near : ∀ m ∈ r.agreement.bufferedMpdus,
    getDistance m.sequenceNumber r.agreement.winStartB < r.agreement.winSizeB
  missing : ∀ m ∈ r.agreement.bufferedMpdus, (m.sequenceNumber : Nat) ≠ r.agreement.winStartB
  increasing : r.passed.Pairwise fun x y => x.1 < y.1
  numbered : ∀ x ∈ r.passed, x.1 % seqnoSpaceSize = x.2.sequenceNumber
  travelled : r.travelled % seqnoSpaceSize = r.agreement.winStartB
  behind : ∀ x ∈ r.passed, x.1 < r.travelled
  once : List.Subperm (r.passed.map Prod.snd ++ r.agreement.bufferedMpdus) r.received

/-- An MPDU beyond the window moves it to begin at a sequence number, not before number 0. -/
def NoUnderflow (agreement : RecipientBlockAckAgreement) : Call → Prop
  | .mpdu mpdu =>
    let distance := getDistance mpdu.sequenceNumber agreement.winStartB
    agreement.winSizeB ≤ distance → distance < seqnoSpaceHalfSize →
      agreement.winSizeB ≤ mpdu.sequenceNumber + 1 ∧
        mpdu.sequenceNumber + 1 - agreement.winSizeB < seqnoSpaceSize
  | .bar _ => True

/-! ## 3. The line -/

/-- The item has a number on the line, in the turn from the start on. -/
structure OnTurn (start : Nat) (x : Nat × Mpdu) : Prop where
  number : x.1 % seqnoSpaceSize = x.2.sequenceNumber
  le : start ≤ x.1
  lt : x.1 < start + seqnoSpaceSize

section Line

variable {start : Nat} {x y : Nat × Mpdu} {l : List (Nat × Mpdu)}

theorem mod_lt_space (start : Nat) : start % seqnoSpaceSize < seqnoSpaceSize :=
  Nat.mod_lt start (by decide)

section

variable (hx : OnTurn start x)
include hx

theorem OnTurn.gap_eq :
    gap seqnoSpaceSize x.2.sequenceNumber (start % seqnoSpaceSize) = x.1 - start := by
  rw [← hx.number]
  exact gap_mod hx.le hx.lt

theorem OnTurn.distance_eq :
    getDistance x.2.sequenceNumber (start % seqnoSpaceSize) = x.1 - start := by
  rw [getDistance_eq_gap _ (mod_lt_space start), hx.gap_eq]

theorem OnTurn.compare_iff (hy : OnTurn start y) :
    RecipientBlockAckAgreement.compare (start % seqnoSpaceSize) x.2.sequenceNumber
      y.2.sequenceNumber ↔ x.1 < y.1 := by
  have hxle := hx.le
  rw [RecipientBlockAckAgreement.compare, tmod_eq_gap _ (mod_lt_space start),
    tmod_eq_gap _ (mod_lt_space start), hx.gap_eq, hy.gap_eq]
  omega

theorem OnTurn.eq_start_iff :
    (x.2.sequenceNumber : Nat) = start % seqnoSpaceSize ↔ x.1 = start := by
  constructor
  · intro heq
    exact eq_of_mod_eq hx.le hx.lt (hx.number.trans heq)
  · intro heq
    rw [← hx.number, heq]

theorem insert_eq (hl : ∀ y ∈ l, OnTurn start y) :
    RecipientBlockAckAgreement.insert (start % seqnoSpaceSize) x.2 (l.map Prod.snd) =
      (hold x l).map Prod.snd := by
  induction l with
  | nil => rfl
  | cons y rest ih =>
    have hy := hl y mem_cons_self
    rw [map_cons, RecipientBlockAckAgreement.insert, hold,
      ih fun z hz => hl z (mem_cons_of_mem y hz)]
    simp only [hx.compare_iff hy, hy.compare_iff hx]
    split
    · rfl
    · split <;> rfl

end

theorem untilFirstLost_eq (hsorted : Ascending l) (hl : ∀ y ∈ l, OnTurn start y) :
    RecipientBlockAckAgreement.untilFirstLost (start % seqnoSpaceSize) (l.map Prod.snd) =
      ((start + (consecutive start l).length) % seqnoSpaceSize, (consecutive start l).map Prod.snd,
        (l.drop (consecutive start l).length).map Prod.snd) := by
  induction l generalizing start with
  | nil => rfl
  | cons y rest ih =>
    have ⟨hy, hrest⟩ := pairwise_cons.mp hsorted
    have hturn := hl y mem_cons_self
    rw [map_cons, RecipientBlockAckAgreement.untilFirstLost, consecutive]
    by_cases heq : y.1 = start
    · have hlater : ∀ z ∈ rest, OnTurn (start + 1) z := fun z hz =>
        have hz' := hl z (mem_cons_of_mem y hz)
        ⟨hz'.number, heq ▸ hy z hz, hz'.lt.trans_le (by omega)⟩
      rw [if_pos (hturn.eq_start_iff.mpr heq), if_pos heq, Nat.mod_add_mod, ih hrest hlater,
        length_cons, drop_succ_cons, map_cons, add_assoc, add_comm 1]
    · rw [if_neg fun h => heq (hturn.eq_start_iff.mp h), if_neg heq]
      rfl

theorem span_snd {p : Mpdu → Bool} {q : Nat × Mpdu → Bool} (h : ∀ x ∈ l, p x.2 = q x) :
    (l.map Prod.snd).takeWhile p = (l.takeWhile q).map Prod.snd ∧
      (l.map Prod.snd).dropWhile p = (l.dropWhile q).map Prod.snd := by
  induction l with
  | nil => exact ⟨rfl, rfl⟩
  | cons x rest ih =>
    obtain ⟨htake, hdrop⟩ := ih fun y hy => h y (mem_cons_of_mem x hy)
    rw [map_cons, takeWhile_cons, takeWhile_cons, dropWhile_cons, dropWhile_cons,
      h x mem_cons_self, htake, hdrop]
    split <;> exact ⟨rfl, rfl⟩

end Line

/-! ## 4. The agreement on the line -/

/-- What the agreement buffers is what is held. -/
structure Represents (agreement : RecipientBlockAckAgreement) (s : Reorder Mpdu) : Prop where
  start : agreement.winStartB = s.start % seqnoSpaceSize
  buffered : agreement.bufferedMpdus = s.held.map Prod.snd
  held : ∀ x ∈ s.held, OnTurn s.start x

variable {limit : Nat} {call : Call}

section Represents

variable {agreement : RecipientBlockAckAgreement} {s : Reorder Mpdu} {x : Nat × Mpdu}

theorem Represents.distance_eq (h : Represents agreement s) (hx : OnTurn s.start x) :
    getDistance x.2.sequenceNumber agreement.winStartB = x.1 - s.start := by
  rw [h.start, hx.distance_eq]

theorem Represents.store (h : Represents agreement s) (hx : OnTurn s.start x) :
    Represents (agreement.store x.2) (s.hold x) where
  start := h.start
  buffered := by
    show RecipientBlockAckAgreement.insert _ _ _ = _
    rw [h.start, h.buffered]
    exact insert_eq hx h.held
  held y hy := by
    rcases mem_hold hy with rfl | hy
    · exact hx
    · exact h.held y hy

theorem Represents.untilFirstLost (h : Represents agreement s) (hs : Sound s) :
    ∃ out, (∀ x ∈ out, x ∈ s.held) ∧ s.releaseRun.released = s.released ++ out ∧
      agreement.passBufferedMpdusUntilFirstLost.2 = out.map Prod.snd ∧
      Represents agreement.passBufferedMpdusUntilFirstLost.1 s.releaseRun := by
  have hloop := untilFirstLost_eq hs.held_ascending h.held
  rw [← h.start, ← h.buffered] at hloop
  have hall := consecutive_append_drop s.start s.held
  refine ⟨consecutive s.start s.held, fun x hx => ?_, rfl, ?_, ⟨?_, ?_, ?_⟩⟩
  · exact hall ▸ mem_append_left _ hx
  · exact congrArg (fun result => result.2.1) hloop
  · exact congrArg (fun result => result.1) hloop
  · exact congrArg (fun result => result.2.2) hloop
  · intro x hx
    have hturn := h.held x (mem_of_mem_drop hx)
    exact ⟨hturn.number, hs.releaseRun.coming x hx,
      hturn.lt.trans_le (Nat.add_le_add_right (Nat.le_add_right _ _) _)⟩

section

variable (h : Represents agreement s) (hs : Sound s) (hle : s.start ≤ limit)
  (hlt : limit < s.start + seqnoSpaceSize)
include h hs hle hlt

theorem Represents.lessThan :
    ∃ out, (∀ x ∈ out, x ∈ s.held) ∧ (s.releaseBelow limit).released = s.released ++ out ∧
      (agreement.passBufferedMpdusWithSeqNumberLessThan (limit % seqnoSpaceSize)).2 =
        out.map Prod.snd ∧
      Represents (agreement.passBufferedMpdusWithSeqNumberLessThan (limit % seqnoSpaceSize)).1
        (s.releaseBelow limit) := by
  have hlimit : getDistance (limit % seqnoSpaceSize) agreement.winStartB = limit - s.start := by
    rw [h.start, getDistance_eq_gap _ (mod_lt_space s.start), gap_mod hle hlt]
  have hless : ∀ x ∈ s.held, decide (getDistance x.2.sequenceNumber agreement.winStartB <
      getDistance (limit % seqnoSpaceSize) agreement.winStartB) = decide (x.1 < limit) := by
    intro x hx
    have hturn := h.held x hx
    have hxle := hturn.le
    rw [hlimit, h.distance_eq hturn]
    exact decide_eq_decide.mpr (by omega)
  refine ⟨s.held.takeWhile fun x => x.1 < limit, fun x hx => ?_, rfl, ?_, ⟨rfl, ?_, ?_⟩⟩
  · exact takeWhile_subset _ hx
  · show agreement.bufferedMpdus.takeWhile _ = _
    rw [h.buffered]
    exact (span_snd hless).1
  · show agreement.bufferedMpdus.dropWhile _ = _
    rw [h.buffered]
    exact (span_snd hless).2
  · intro x hx
    have hturn := h.held x (dropWhile_subset _ hx)
    exact ⟨hturn.number, (hs.releaseBelow hle).coming x hx,
      hturn.lt.trans_le (Nat.add_le_add_right hle _)⟩

theorem Represents.moveTo : ∃ out, (∀ x ∈ out, x ∈ s.held) ∧
      (s.releaseBelow limit).releaseRun.released = s.released ++ out ∧
      (agreement.moveTo (limit % seqnoSpaceSize)).2 = out.map Prod.snd ∧
      Represents (agreement.moveTo (limit % seqnoSpaceSize)).1 (s.releaseBelow limit).releaseRun := by
  obtain ⟨before, hbefore, hreleased, hpassed, hmoved⟩ := h.lessThan hs hle hlt
  obtain ⟨following, hfollowing, hreleased', hpassed', hrun⟩ :=
    hmoved.untilFirstLost (hs.releaseBelow hle)
  refine ⟨before ++ following, fun x hx => ?_, ?_, ?_, hrun⟩
  · rcases mem_append.mp hx with hx | hx
    · exact hbefore x hx
    · exact dropWhile_subset _ (hfollowing x hx)
  · rw [hreleased', hreleased, append_assoc]
  · rw [map_append, ← hpassed, ← hpassed']
    rfl

end

end Represents

/-! ## 5. Runs -/

/-- Up to here, the reception is a reordering on the line. -/
structure Follows (r : Reception) (s : Reorder Mpdu) : Prop where
  represents : Represents r.agreement s
  sound : Sound s
  travelled : r.travelled = s.start
  passed : r.passed = s.released
  numbered : ∀ x ∈ s.released, x.1 % seqnoSpaceSize = x.2.sequenceNumber
  near : ∀ x ∈ s.held, x.1 < s.start + r.agreement.winSizeB
  missing : ∀ x ∈ s.held, s.start < x.1
  once : List.Subperm (s.line.map Prod.snd) r.received
  winSize_le : r.agreement.winSizeB ≤ 1024

theorem Follows.ordered {r : Reception} {s : Reorder Mpdu} (h : Follows r s) : Ordered r where
  start_lt := by
    rw [h.represents.start]
    exact mod_lt_space s.start
  near m hm := by
    rw [h.represents.buffered] at hm
    obtain ⟨x, hx, rfl⟩ := mem_map.mp hm
    have := h.near x hx
    have := h.missing x hx
    rw [h.represents.distance_eq (h.represents.held x hx)]
    omega
  missing m hm := by
    rw [h.represents.buffered] at hm
    obtain ⟨x, hx, rfl⟩ := mem_map.mp hm
    rw [h.represents.start]
    intro heq
    exact (h.missing x hx).ne' ((h.represents.held x hx).eq_start_iff.mp heq)
  increasing := h.passed ▸ h.sound.released_ascending
  numbered := h.passed ▸ h.numbered
  travelled := h.travelled ▸ h.represents.start.symm
  behind x hx := h.travelled ▸ h.sound.past x (h.passed ▸ hx)
  once := by
    have hline := h.once
    rw [Reorder.line, map_append, ← h.passed, ← h.represents.buffered] at hline
    exact hline

theorem Follows.after {r : Reception} {s s' : Reorder Mpdu} (h : Follows r s)
    {result : RecipientBlockAckAgreement × List Mpdu} {out : List (Nat × Mpdu)}
    (hrepresents : Represents result.1 s') (hsound : Sound s') (hout : ∀ x ∈ out, OnTurn s.start x)
    (hreleased : s'.released = s.released ++ out) (hpassed : result.2 = out.map Prod.snd)
    (hle : s.start ≤ s'.start) (hlt : s'.start < s.start + seqnoSpaceSize)
    (hsize : result.1.winSizeB = r.agreement.winSizeB)
    (hnear : ∀ x ∈ s'.held, x.1 < s'.start + r.agreement.winSizeB)
    (hmissing : ∀ x ∈ s'.held, s'.start < x.1)
    (honce : List.Subperm (s'.line.map Prod.snd) (r.received ++ call.received)) :
    Follows (r.after call result) s' where
  represents := hrepresents
  sound := hsound
  travelled := by
    show r.travelled + getDistance result.1.winStartB r.agreement.winStartB = _
    rw [hrepresents.start, h.represents.start, getDistance_eq_gap _ (mod_lt_space s.start),
      gap_mod hle hlt, h.travelled, Nat.add_sub_cancel' hle]
  passed := by
    show r.passed ++ result.2.map _ = _
    have hline : ∀ x ∈ out,
        (r.travelled + getDistance x.2.sequenceNumber r.agreement.winStartB, x.2) = id x := by
      intro x hx
      rw [h.represents.distance_eq (hout x hx), h.travelled, Nat.add_sub_cancel' (hout x hx).le]
      rfl
    rw [hreleased, h.passed, hpassed, map_map]
    exact congrArg (s.released ++ ·) ((map_congr_left hline).trans (map_id out))
  numbered x hx := by
    rw [hreleased] at hx
    rcases mem_append.mp hx with hx | hx
    · exact h.numbered x hx
    · exact (hout x hx).number
  near := by
    rw [show (r.after call result).agreement = result.1 from rfl, hsize]
    exact hnear
  missing := hmissing
  once := honce
  winSize_le := by
    rw [show (r.after call result).agreement = result.1 from rfl, hsize]
    exact h.winSize_le

section Step

variable {r : Reception} {s : Reorder Mpdu}

theorem toUint16_getDistance (a : Nat) {b : Nat} (hb : b < seqnoSpaceSize) :
    toUint16 (getDistance a b) = getDistance a b := by
  have hlt : gap seqnoSpaceSize a b < 4096 := gap_lt (by decide) a b
  rw [getDistance_eq_gap a hb]
  exact toUint16_of_lt (by omega)

section

variable (h : Follows r s)
include h

/-- The number on the line of a sequence number, in the turn from the start on. -/
theorem Follows.onTurn (m : Mpdu) :
    OnTurn s.start (s.start + getDistance m.sequenceNumber r.agreement.winStartB, m) where
  number := by
    rw [h.represents.start, getDistance_eq_gap _ (mod_lt_space s.start)]
    exact add_gap_mod m.sequenceNumber.isLt s.start
  le := Nat.le_add_right _ _
  lt := by
    rw [h.represents.start, getDistance_eq_gap _ (mod_lt_space s.start)]
    exact Nat.add_lt_add_left (gap_lt (by decide) _ _) _

theorem Follows.once_hold (p : Nat) (m : Mpdu) :
    List.Subperm ((s.hold (p, m)).line.map Prod.snd) (r.received ++ [m]) :=
  (subperm_map Prod.snd (line_hold_subperm s (p, m))).trans
    (((subperm_cons m).mpr h.once).trans (perm_append_singleton m r.received).symm.subperm)

theorem Follows.turn_of_winSize (start : Nat) :
    start + r.agreement.winSizeB < start + seqnoSpaceSize :=
  Nat.add_lt_add_left (h.winSize_le.trans_lt (by decide)) start

/-- An MPDU in the window is held, and what follows the start is given out. -/
theorem Follows.inside (scoreboard : BlockAckWindow) (m : Mpdu)
    (hd : getDistance m.sequenceNumber r.agreement.winStartB < r.agreement.winSizeB) :
    ∃ s', Follows (r.after (.mpdu m)
      ({ r.agreement with scoreboard }.store m).passBufferedMpdusUntilFirstLost) s' := by
  have hturn := h.onTurn m
  generalize hp : s.start + getDistance m.sequenceNumber r.agreement.winStartB = p at hturn
  have hs := h.sound.hold (x := (p, m)) hturn.le
  have hagreement : Represents { r.agreement with scoreboard } s :=
    ⟨h.represents.start, h.represents.buffered, h.represents.held⟩
  have hstore := hagreement.store hturn
  have hnear : ∀ x ∈ (s.hold (p, m)).held, x.1 < s.start + r.agreement.winSizeB := by
    intro x hx
    rcases mem_hold hx with rfl | hx
    · show p < _
      omega
    · exact h.near x hx
  obtain ⟨out, hout, hreleased, hpassed, hrun⟩ := hstore.untilFirstLost hs
  have hle : s.start ≤ (s.hold (p, m)).releaseRun.start := Nat.le_add_right _ _
  have hlt := (releaseRun_start_le hnear (Nat.le_add_right _ _)).trans_lt (h.turn_of_winSize s.start)
  refine ⟨_, h.after hrun hs.releaseRun (fun x hx => hstore.held x (hout x hx)) hreleased hpassed
    hle hlt rfl (fun x hx => ?_) (fun x hx => lt_of_mem_releaseRun hs hx) ?_⟩
  · exact (hnear x (mem_of_mem_drop hx)).trans_le (Nat.add_le_add_right hle _)
  · rw [line_releaseRun]
    exact h.once_hold p m

theorem Follows.moveTo {s' : Reorder Mpdu} (call : Call) {agreement : RecipientBlockAckAgreement}
    (hagreement : Represents agreement s') (hs : Sound s') (hstart : s'.start = s.start)
    (hreleased : s'.released = s.released) (hsize : agreement.winSizeB = r.agreement.winSizeB)
    {bound : Nat} (hle : s.start ≤ limit) (hlimit : limit ≤ bound)
    (hbound : bound < s.start + seqnoSpaceSize) (hnear : ∀ x ∈ s'.held, x.1 < bound)
    (hwindow : bound ≤ limit + r.agreement.winSizeB)
    (honce : List.Subperm (s'.line.map Prod.snd) (r.received ++ call.received)) :
    ∃ s'', Follows (r.after call (agreement.moveTo (limit % seqnoSpaceSize))) s'' := by
  have hlt := hlimit.trans_lt hbound
  have hbelow := hs.releaseBelow (hstart.trans_le hle)
  obtain ⟨out, hout, hgiven, hpassed, hrun⟩ := hagreement.moveTo hs (hstart.trans_le hle)
    (hlt.trans_eq (congrArg (· + seqnoSpaceSize) hstart.symm))
  have hnear' : ∀ x ∈ (s'.releaseBelow limit).held, x.1 < bound := fun x hx =>
    hnear x (dropWhile_subset _ hx)
  have hon : limit ≤ (s'.releaseBelow limit).releaseRun.start := Nat.le_add_right _ _
  refine ⟨_, h.after hrun hbelow.releaseRun (fun x hx => ?_) (hgiven.trans (by rw [hreleased]))
    hpassed (hle.trans hon) ((releaseRun_start_le hnear' hlimit).trans_lt hbound) hsize
    (fun x hx => ?_) (fun x hx => lt_of_mem_releaseRun hbelow hx) ?_⟩
  · exact hstart ▸ hagreement.held x (hout x hx)
  · exact ((hnear' x (mem_of_mem_drop hx)).trans_le hwindow).trans_le (Nat.add_le_add_right hon _)
  · rw [line_releaseRun, line_releaseBelow]
    exact honce

/-- An MPDU beyond the window is held, and the window moves to end with it. -/
theorem Follows.beyond (scoreboard : BlockAckWindow) (m : Mpdu)
    (hd : r.agreement.winSizeB ≤ getDistance m.sequenceNumber r.agreement.winStartB)
    (hhalf : getDistance m.sequenceNumber r.agreement.winStartB < seqnoSpaceHalfSize)
    (hguard : NoUnderflow r.agreement (.mpdu m)) :
    ∃ s', Follows (r.after (.mpdu m) (({ r.agreement with scoreboard }.store m).moveTo
      (r.agreement.newWinStartB m.sequenceNumber))) s' := by
  have hturn := h.onTurn m
  obtain ⟨hno, hsmall⟩ := hguard hd hhalf
  generalize getDistance m.sequenceNumber r.agreement.winStartB = d at hd hhalf hturn
  have hagreement : Represents { r.agreement with scoreboard } s :=
    ⟨h.represents.start, h.represents.buffered, h.represents.held⟩
  have hnew : r.agreement.newWinStartB m.sequenceNumber =
      (s.start + d + 1 - r.agreement.winSizeB) % seqnoSpaceSize := by
    have hnumber : (s.start + d) % 4096 = m.sequenceNumber := hturn.number
    have hsmall' : m.sequenceNumber + 1 - r.agreement.winSizeB < 4096 := hsmall
    show toUint16 (toSizeT _) = _ % 4096
    unfold toUint16 toSizeT
    omega
  rw [hnew]
  have hwindow := h.winSize_le
  have hhalf' : d < 2048 := hhalf
  have hnear : ∀ x ∈ (s.hold (s.start + d, m)).held, x.1 < s.start + d + 1 := by
    intro x hx
    rcases mem_hold hx with rfl | hx
    · exact Nat.lt_succ_self _
    · have := h.near x hx
      omega
  have hbound : s.start + d + 1 < s.start + seqnoSpaceSize := by
    show _ < s.start + 4096
    omega
  exact h.moveTo _ (hagreement.store hturn) (h.sound.hold hturn.le) rfl rfl rfl (by omega)
    (by omega) hbound hnear (by omega) (h.once_hold _ m)

theorem Follows.unmoved (scoreboard : BlockAckWindow) (call : Call) :
    Follows (r.after call ({ r.agreement with scoreboard }, [])) s :=
  have hrepresents : Represents { r.agreement with scoreboard } s :=
    ⟨h.represents.start, h.represents.buffered, h.represents.held⟩
  h.after hrepresents h.sound (fun _ hx => absurd hx not_mem_nil) (append_nil _).symm rfl
    le_rfl (Nat.lt_add_of_pos_right (by decide)) rfl h.near h.missing
    (h.once.trans (sublist_append_left _ _).subperm)

theorem Follows.mpdu (scoreboard : BlockAckWindow) (m : Mpdu)
    (hguard : NoUnderflow r.agreement (.mpdu m)) :
    ∃ s', Follows (r.after (.mpdu m)
      (RecipientBlockAckAgreement.reorder { r.agreement with scoreboard } m)) s' := by
  have hdistance := toUint16_getDistance m.sequenceNumber
    (h.represents.start ▸ mod_lt_space s.start)
  rw [RecipientBlockAckAgreement.reorder]
  simp only [hdistance]
  split
  · next hd => exact h.inside scoreboard m hd
  · next hd =>
    split
    · next hhalf => exact h.beyond scoreboard m (not_lt.mp hd) hhalf hguard
    · exact ⟨s, h.unmoved scoreboard (.mpdu m)⟩

theorem Follows.bar (startingSequenceNumber : SequenceNumber) :
    ∃ s', Follows (r.after (.bar startingSequenceNumber)
      (r.agreement.notifyReceivedBar startingSequenceNumber)) s' := by
  have hdistance := toUint16_getDistance startingSequenceNumber
    (h.represents.start ▸ mod_lt_space s.start)
  rw [RecipientBlockAckAgreement.notifyReceivedBar]
  simp only [hdistance]
  split
  · next hd =>
    have hturn := h.onTurn ⟨0, startingSequenceNumber⟩
    have hhalf : getDistance startingSequenceNumber r.agreement.winStartB < 2048 := hd.2
    generalize getDistance startingSequenceNumber r.agreement.winStartB = d at hd hhalf hturn
    have hwindow := h.winSize_le
    have hagreement : Represents { r.agreement with
        scoreboard := RecipientBlockAckAgreement.scoreboardFrom r.agreement.scoreboard
          startingSequenceNumber } s :=
      ⟨h.represents.start, h.represents.buffered, h.represents.held⟩
    have hnumber : (s.start + d) % seqnoSpaceSize = startingSequenceNumber := hturn.number
    have hnear : ∀ x ∈ s.held, x.1 < s.start + d + r.agreement.winSizeB := fun x hx =>
      (h.near x hx).trans_le (by omega)
    have hbound : s.start + d + r.agreement.winSizeB < s.start + seqnoSpaceSize := by
      show _ < s.start + 4096
      omega
    have hmoved := h.moveTo (.bar startingSequenceNumber) hagreement h.sound rfl rfl rfl
      (Nat.le_add_right s.start d) (Nat.le_add_right _ _) hbound hnear le_rfl
      (h.once.trans (sublist_append_left _ _).subperm)
    rw [hnumber] at hmoved
    exact hmoved
  · exact ⟨s, h.unmoved _ (.bar startingSequenceNumber)⟩

end

end Step

/-- As long as the calls return, the reception follows a reordering. -/
def Following (r : Option Reception) : Prop := ∀ r' ∈ r, ∃ s, Follows r' s

/-- The condition of a call. -/
def Allowed (r : Option Reception) (call : Call) : Prop :=
  ∀ r' ∈ r, NoUnderflow r'.agreement call

theorem following_init {bufferSize : Nat} (hsize : bufferSize ≤ 1024)
    (startingSeq : SequenceNumber) : Following (some (.init bufferSize startingSeq)) := by
  intro r hr
  obtain rfl := Option.some.inj hr
  refine ⟨{ start := startingSeq }, ⟨?_, rfl, ?_⟩, sound_new _, rfl, rfl, ?_, ?_, ?_, ?_, hsize⟩
  · exact (Nat.mod_eq_of_lt startingSeq.isLt).symm
  · exact fun _ hx => absurd hx not_mem_nil
  · exact fun _ hx => absurd hx not_mem_nil
  · exact fun _ hx => absurd hx not_mem_nil
  · exact fun _ hx => absurd hx not_mem_nil
  · exact List.Subperm.refl _

theorem following_next (r : Option Reception) (call : Call) (h : Following r)
    (hguard : Allowed r call) : Following (Reception.next r call) := by
  intro r'' hr''
  obtain ⟨r', rfl, hnext⟩ := Option.bind_eq_some_iff.mp hr''
  obtain ⟨result, hnotify, rfl⟩ := Option.map_eq_some_iff.mp hnext
  obtain ⟨s, hs⟩ := h r' rfl
  have hallowed := hguard r' rfl
  cases call with
  | mpdu m =>
    obtain ⟨scoreboard, -, rfl⟩ := Option.map_eq_some_iff.mp hnotify
    exact hs.mpdu scoreboard m hallowed
  | bar startingSequenceNumber =>
    obtain rfl := Option.some.inj hnotify
    exact hs.bar startingSequenceNumber

/-! ## 6. The window that cannot begin -/

/-- Both windows have the size of the agreement. -/
def Sized (size : Nat) (r : Option Reception) : Prop :=
  ∀ r' ∈ r, r'.agreement.scoreboard.getWinSize = size ∧ r'.agreement.winSizeB = size

theorem getWinSize_of_markReceived {scoreboard scoreboard' : BlockAckWindow} {m : Mpdu}
    (h : RecipientBlockAckAgreement.markReceived scoreboard m = some scoreboard') :
    scoreboard'.getWinSize = scoreboard.getWinSize := by
  simp only [RecipientBlockAckAgreement.markReceived] at h
  split at h
  · exact getWinSize_of_setAt h
  · split at h
    · rw [getWinSize_of_setAt h, getWinSize_advance]
    · rw [Option.some.inj h]

theorem markReceived_isSome {scoreboard : BlockAckWindow} (h : 0 < scoreboard.getWinSize)
    (m : Mpdu) : (RecipientBlockAckAgreement.markReceived scoreboard m).isSome := by
  simp only [RecipientBlockAckAgreement.markReceived]
  split
  · exact setAt_isSome h _
  · split
    · refine setAt_isSome ?_ _
      rw [getWinSize_advance]
      exact h
    · rfl

theorem winSizeB_reorder (agreement : RecipientBlockAckAgreement) (m : Mpdu) :
    (agreement.reorder m).1.winSizeB = agreement.winSizeB := by
  rw [RecipientBlockAckAgreement.reorder]
  split
  · rfl
  · split <;> rfl

theorem scoreboard_reorder (agreement : RecipientBlockAckAgreement) (m : Mpdu) :
    (agreement.reorder m).1.scoreboard = agreement.scoreboard := by
  rw [RecipientBlockAckAgreement.reorder]
  split
  · rfl
  · split <;> rfl

theorem getWinSize_scoreboardFrom (scoreboard : BlockAckWindow) (startingSequenceNumber : Nat) :
    (RecipientBlockAckAgreement.scoreboardFrom scoreboard startingSequenceNumber).getWinSize =
      scoreboard.getWinSize := by
  rw [RecipientBlockAckAgreement.scoreboardFrom]
  split
  · exact getWinSize_advance _ _
  · split
    · exact BlockAckWindow.getWinSize_reset _ _
    · rfl

theorem sized_next {size : Nat} {r : Option Reception} (h : Sized size r) (call : Call) :
    Sized size (Reception.next r call) := by
  intro r'' hr''
  obtain ⟨r', rfl, hnext⟩ := Option.bind_eq_some_iff.mp hr''
  obtain ⟨result, hnotify, rfl⟩ := Option.map_eq_some_iff.mp hnext
  have ⟨hscoreboard, hsize⟩ := h r' rfl
  cases call with
  | mpdu m =>
    obtain ⟨scoreboard, hmark, rfl⟩ := Option.map_eq_some_iff.mp hnotify
    have hmarked := getWinSize_of_markReceived hmark
    exact ⟨(congrArg _ (scoreboard_reorder _ m)).trans (hmarked.trans hscoreboard),
      (winSizeB_reorder _ m).trans hsize⟩
  | bar startingSequenceNumber =>
    obtain rfl := Option.some.inj hnotify
    have hkept := (getWinSize_scoreboardFrom r'.agreement.scoreboard startingSequenceNumber).trans
      hscoreboard
    show (RecipientBlockAckAgreement.notifyReceivedBar _ _).1.scoreboard.getWinSize = _ ∧
      (RecipientBlockAckAgreement.notifyReceivedBar _ _).1.winSizeB = _
    rw [RecipientBlockAckAgreement.notifyReceivedBar]
    simp only
    split
    · exact ⟨hkept, hsize⟩
    · exact ⟨hkept, hsize⟩

theorem untilFirstLost_of_ge {start : Nat} (h : seqnoSpaceSize ≤ start) (l : List Mpdu) :
    (RecipientBlockAckAgreement.untilFirstLost start l).1 = start := by
  cases l with
  | nil => rfl
  | cons m rest =>
    have hne : (m.sequenceNumber : Nat) ≠ start := (m.sequenceNumber.isLt.trans_le h).ne
    rw [RecipientBlockAckAgreement.untilFirstLost, if_neg hne]

theorem underflow_of_not {agreement : RecipientBlockAckAgreement} (hsize : 0 < agreement.winSizeB)
    (hle : agreement.winSizeB ≤ 1024) (hstart : agreement.winStartB < seqnoSpaceSize)
    (h : ¬NoUnderflow agreement call) :
    ∃ m, call = .mpdu m ∧ ∀ scoreboard, seqnoSpaceSize ≤ (RecipientBlockAckAgreement.reorder
        { agreement with scoreboard } m).1.winStartB := by
  cases call with
  | bar startingSequenceNumber => exact absurd trivial h
  | mpdu m =>
    refine ⟨m, rfl, fun scoreboard => ?_⟩
    have hdistance := toUint16_getDistance m.sequenceNumber hstart
    simp only [NoUnderflow, Classical.not_imp] at h
    obtain ⟨hd, hhalf, hno⟩ := h
    have hnew : seqnoSpaceSize ≤ agreement.newWinStartB m.sequenceNumber := by
      have hsmall := m.sequenceNumber.isLt
      have hno' : ¬(agreement.winSizeB ≤ m.sequenceNumber + 1 ∧
        m.sequenceNumber + 1 - agreement.winSizeB < 4096) := hno
      show 4096 ≤ toUint16 (toSizeT _)
      unfold toUint16 toSizeT
      omega
    rw [RecipientBlockAckAgreement.reorder]
    simp only [hdistance]
    rw [if_neg (not_lt.mpr hd), if_pos hhalf]
    exact hnew.trans_eq (untilFirstLost_of_ge hnew _).symm

theorem ordered_of_following {r : Option Reception} (h : Following r) : ∀ r' ∈ r, Ordered r' := by
  intro r' hr'
  obtain ⟨s, hs⟩ := h r' hr'
  exact hs.ordered

theorem not_ordered_next {size : Nat} (hsize : 0 < size) {r : Option Reception} (h : Following r)
    (hsized : Sized size r) (hguard : ¬Allowed r call) :
    ¬∀ r' ∈ Reception.next r call, Ordered r' := by
  intro hordered
  simp only [Allowed, not_forall] at hguard
  obtain ⟨r', rfl, hno⟩ := hguard
  obtain ⟨s, hs⟩ := h r' rfl
  have ⟨hscoreboard, hwindow⟩ := hsized r' rfl
  obtain ⟨m, rfl, hge⟩ := underflow_of_not (hwindow ▸ hsize) hs.winSize_le hs.ordered.start_lt hno
  obtain ⟨scoreboard, hmark⟩ :=
    Option.isSome_iff_exists.mp (markReceived_isSome (hscoreboard ▸ hsize) m)
  have hnext : Reception.next (some r') (.mpdu m) = some (r'.after (.mpdu m)
      (RecipientBlockAckAgreement.reorder { r'.agreement with scoreboard } m)) := by
    show Option.map _ (Option.map _ (RecipientBlockAckAgreement.markReceived _ m)) = _
    rw [hmark]
    rfl
  exact absurd (hordered _ hnext).start_lt (not_lt.mpr (hge scoreboard))

/-- All along a run, the buffer is in order as long as no MPDU moves the window to begin before
number 0, and, with a window of at least one number, only so long. -/
theorem ordered_iff_no_underflow {bufferSize : Nat} (hsize : bufferSize ≤ 1024)
    (startingSeq : SequenceNumber) (calls : List Call) :
    (Guarded Reception.next Allowed (some (.init bufferSize startingSeq)) calls →
        ∀ before, before <+: calls → ∀ r ∈ Reception.run bufferSize startingSeq before, Ordered r) ∧
      (0 < bufferSize →
        (∀ before, before <+: calls → ∀ r ∈ Reception.run bufferSize startingSeq before,
          Ordered r) →
        Guarded Reception.next Allowed (some (.init bufferSize startingSeq)) calls) := by
  constructor
  · rintro h before ⟨rest, rfl⟩
    exact ordered_of_following ((guarded_append.mp h).1.inv_foldl following_next
      (following_init hsize startingSeq))
  · intro hpos h
    have hinit : Following (some (.init bufferSize startingSeq)) ∧
        Sized bufferSize (some (.init bufferSize startingSeq)) := by
      refine ⟨following_init hsize startingSeq, fun r hr => ?_⟩
      obtain rfl := Option.some.inj hr
      exact ⟨List.length_replicate, rfl⟩
    exact (forall_prefix_iff_guarded
      (fun r call (hr : Following r ∧ Sized bufferSize r) hguard =>
        ⟨following_next r call hr.1 hguard, sized_next hr.2 call⟩)
      (fun r hr => ordered_of_following hr.1)
      (fun r call hr hguard => not_ordered_next hpos hr.1 hr.2 hguard) hinit calls).mp h

/-- Two MPDUs beyond the window, and a Block Ack request that moves it past number 0. -/
theorem ordered_iff_no_underflow_across_zero :
    ∃ r ∈ Reception.run 64 4000 [.mpdu ⟨0, 4090⟩, .bar 20, .mpdu ⟨1, 100⟩], Ordered r := by
  have hguarded : Guarded Reception.next Allowed (some (.init 64 4000))
      [.mpdu ⟨0, 4090⟩, .bar 20, .mpdu ⟨1, 100⟩] := by
    refine ⟨?_, fun _ _ => trivial, ?_, trivial⟩
    · intro r hr
      obtain rfl := Option.some.inj hr
      exact fun _ _ => ⟨by decide, by decide⟩
    · intro r hr hd hhalf
      have hrun : (Reception.run 64 4000 [.mpdu ⟨0, 4090⟩, .bar 20]).map
          (fun r => r.agreement.winSizeB) = some 64 := by decide +kernel
      obtain ⟨r', hr', hsize⟩ := Option.map_eq_some_iff.mp hrun
      obtain rfl := Option.some.inj (hr.symm.trans hr')
      rw [hsize]
      decide
  have hsome : (Reception.run 64 4000 [.mpdu ⟨0, 4090⟩, .bar 20, .mpdu ⟨1, 100⟩]).isSome := by
    decide +kernel
  obtain ⟨r, hr⟩ := Option.isSome_iff_exists.mp hsome
  exact ⟨r, hr, (ordered_iff_no_underflow (by decide) 4000 _).1 hguarded _ List.prefix_rfl r hr⟩

theorem window_leaves_the_numbers :
    ¬∀ calls, ∀ r ∈ Reception.run 64 4000 calls, Ordered r := by
  intro h
  have hrun : ((Reception.run 64 4000 [.mpdu ⟨0, 10⟩]).map fun r => r.agreement.winStartB) =
      some 65483 := by decide +kernel
  obtain ⟨r, hr, hstart⟩ := Option.map_eq_some_iff.mp hrun
  have := (h _ r hr).start_lt
  rw [hstart] at this
  exact absurd this (by decide)

end MoeJit.Wifi
