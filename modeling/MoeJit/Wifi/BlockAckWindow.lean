import MoeJit.Lib.Circle

/-!
# The window of a Block Ack agreement

Sequence numbers have twelve bits, and are kept in 16-bit variables. `GetDistance` computes with the
signs of C: on sequence numbers it is the gap on the circle (`getDistance_eq_gap`), and where the
second number is larger than that, it may be a size that no window has.

The window is a ring of bits that starts at `m_head`.
-/

namespace MoeJit.Wifi

open Circle

abbrev seqnoSpaceSize : Nat := 4096

abbrev seqnoSpaceHalfSize : Nat := 2048

abbrev SequenceNumber := Fin seqnoSpaceSize

/-- Conversion to `std::size_t`. -/
def toSizeT (x : Int) : Nat := (x % 18446744073709551616).toNat

/-- Conversion to `uint16_t`. -/
def toUint16 (x : Int) : Nat := (x % 65536).toNat

/-- `BlockAckAgreement::GetDistance`, with the remainder of C. -/
def getDistance (seqNumber startingSeqNumber : Nat) : Nat :=
  toSizeT (((seqNumber : Int) - startingSeqNumber + seqnoSpaceSize).tmod seqnoSpaceSize)

theorem toUint16_of_lt {x : Nat} (h : x < 65536) : toUint16 x = x := by
  unfold toUint16
  omega

theorem tmod_eq_gap (a : Nat) {b : Nat} (hb : b < seqnoSpaceSize) :
    ((a : Int) - b + seqnoSpaceSize).tmod seqnoSpaceSize = gap seqnoSpaceSize a b := by
  have hsum : (a : Int) - b + seqnoSpaceSize = ((a + seqnoSpaceSize - b : Nat) : Int) := by
    omega
  rw [hsum, gap, Int.tmod_eq_emod_of_nonneg (Int.natCast_nonneg _), Int.natCast_emod]

theorem getDistance_eq_gap (a : Nat) {b : Nat} (hb : b < seqnoSpaceSize) :
    getDistance a b = gap seqnoSpaceSize a b := by
  have hlt : gap seqnoSpaceSize a b < 4096 := gap_lt (by decide) a b
  rw [getDistance, tmod_eq_gap a hb, toSizeT]
  omega

structure BlockAckWindow where
  winStart : Nat
  window : List Bool
  head : Nat
  deriving DecidableEq

namespace BlockAckWindow

/-- `Init`. -/
def init (winStart winSize : Nat) : BlockAckWindow :=
  { winStart, window := List.replicate winSize false, head := 0 }

def reset (w : BlockAckWindow) (winStart : Nat) : BlockAckWindow := init winStart w.window.length

def getWinSize (w : BlockAckWindow) : Nat := w.window.length

/-- The bit that `At` gives access to. There is none in a window without bits. -/
def index? (w : BlockAckWindow) (distance : Nat) : Option Nat :=
  if w.window.length = 0 then none else some ((w.head + distance) % w.window.length)

/-- `At(distance)`, read. -/
def isSet? (w : BlockAckWindow) (distance : Nat) : Option Bool :=
  (w.index? distance).bind fun i => w.window[i]?

/-- `At(distance) = true`. -/
def setAt (w : BlockAckWindow) (distance : Nat) : Option BlockAckWindow :=
  (w.index? distance).map fun i => { w with window := w.window.set i true }

/-- Bits are cleared from the head on. -/
def clear (window : List Bool) (head : Nat) : Nat → List Bool × Nat
  | 0 => (window, head)
  | count + 1 => clear (window.set head false) ((head + 1) % window.length) count

def advance (w : BlockAckWindow) (count : Nat) : BlockAckWindow :=
  if w.window.length ≤ count then w.reset ((w.winStart + count) % seqnoSpaceSize)
  else
    let (window, head) := clear w.window w.head count
    { winStart := (w.winStart + count) % seqnoSpaceSize, window, head }

@[simp] theorem getWinSize_reset (w : BlockAckWindow) (winStart : Nat) :
    (w.reset winStart).getWinSize = w.getWinSize := List.length_replicate

theorem length_clear (window : List Bool) (head count : Nat) :
    (clear window head count).1.length = window.length := by
  induction count generalizing window head with
  | zero => rfl
  | succ count ih => rw [clear, ih, List.length_set]

@[simp] theorem getWinSize_advance (w : BlockAckWindow) (count : Nat) :
    (w.advance count).getWinSize = w.getWinSize := by
  rw [advance]
  split
  · exact getWinSize_reset w _
  · exact length_clear w.window w.head count

theorem getWinSize_of_setAt {w w' : BlockAckWindow} {distance : Nat}
    (h : w.setAt distance = some w') : w'.getWinSize = w.getWinSize := by
  obtain ⟨i, -, rfl⟩ := Option.map_eq_some_iff.mp h
  exact List.length_set

theorem setAt_isSome {w : BlockAckWindow} (h : 0 < w.getWinSize) (distance : Nat) :
    (w.setAt distance).isSome := by
  have hne : w.window.length ≠ 0 := Nat.ne_of_gt h
  rw [setAt, Option.isSome_map, index?, if_neg hne]
  rfl

end BlockAckWindow

end MoeJit.Wifi
