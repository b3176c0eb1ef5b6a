import MoeJit.Lib.SlidingBits
import MoeJit.Wifi.RecipientBlockAck

/-!
# The scoreboard of the recipient of a Block Ack agreement

The scoreboard is a window over the sequence numbers whose bits are in a ring. `FillBlockAckBitmap`
copies them to a Block Ack frame.

`bits` are the bits in the order of the sequence numbers: `Advance` slides them and `Reset` clears
them. In every state of a run, a bit of the frame is set when an MPDU with its number was received,
and the number has been in the window ever since (`bitmap_exact`).
-/

namespace MoeJit.Wifi

open Circle SlidingBits List
open Option (bind_some getD_some map_eq_some_iff mem_unique)
open Reception (init run)

/-! ## 1. The frame -/

inductive BlockAckVariant
  | basic
  | compressed
  | extendedCompressed
  | multiTid
  | multiSta
  deriving DecidableEq

/-- A Block Ack frame with one of its bitmaps, which has `bitmapLen` bytes. An all-ack context
acknowledges everything. -/
structure CtrlBAckResponseHeader where
  variant : BlockAckVariant
  bitmapLen : Nat
  allAck : Bool
  startingSeq : Nat
  bitmap : List (BitVec 8)
  deriving DecidableEq

/-- The variant, and the length of the bitmap in bytes. There is none for a larger buffer. -/
def getBlockAckType (htSupported : Bool) (bufferSize : Nat) : Option (BlockAckVariant × Nat) :=
  if htSupported then
    ([64, 256, 512, 1024].find? fun length => bufferSize ≤ length).map fun length =>
      (.compressed, length / 8)
  else some (.basic, 128)

namespace CtrlBAckResponseHeader

def setType (type : BlockAckVariant × Nat) : CtrlBAckResponseHeader where
  variant := type.1
  bitmapLen := type.2
  allAck := false
  startingSeq := 0
  bitmap := List.replicate type.2 0

def nAckedMpdus (header : CtrlBAckResponseHeader) : Nat :=
  if header.variant = .basic then header.bitmapLen * 8 / 16 else header.bitmapLen * 8

def isInBitmap (header : CtrlBAckResponseHeader) (seq : Nat) : Bool :=
  ((seq : Int) - header.startingSeq + seqnoSpaceSize).tmod seqnoSpaceSize < header.nAckedMpdus

def indexInBitmap (header : CtrlBAckResponseHeader) (seq : Nat) : Option Nat :=
  let i := if header.startingSeq ≤ seq then toUint16 ((seq : Int) - header.startingSeq)
    else toUint16 ((seqnoSpaceSize : Int) - header.startingSeq + seq)
  if i < header.nAckedMpdus then some i else none

/-- There is no byte past the end. -/
def orByte (header : CtrlBAckResponseHeader) (k : Nat) (mask : BitVec 8) :
    Option CtrlBAckResponseHeader :=
  header.bitmap[k]?.map fun byte => { header with bitmap := header.bitmap.set k (byte ||| mask) }

def setReceivedPacket (header : CtrlBAckResponseHeader) (seq : Nat) :
    Option CtrlBAckResponseHeader :=
  if header.isInBitmap seq then do
    let i ← header.indexInBitmap seq
    match header.variant with
    | .basic => header.orByte (i * 2) 1
    | .multiTid => none
    | _ => header.orByte (i / 8) (1#8 <<< (i % 8))
  else some header

def isPacketReceived (header : CtrlBAckResponseHeader) (seq : Nat) : Option Bool :=
  if header.variant = .multiSta && header.allAck then some true
  else if header.isInBitmap seq then
    match header.variant with
    | .basic => some false
    | .multiTid => none
    | _ => do
      let i ← header.indexInBitmap seq
      let byte ← header.bitmap[i / 8]?
      return byte &&& (1#8 <<< (i % 8)) ≠ 0
  else some false

end CtrlBAckResponseHeader

namespace BlockAckWindow

/-- A round of the loop of `FillBlockAckBitmap`. -/
def report (w : BlockAckWindow) (header : CtrlBAckResponseHeader) (i : Nat) :
    Option CtrlBAckResponseHeader := do
  if ← w.isSet? i then header.setReceivedPacket ((w.winStart + i) % seqnoSpaceSize)
  else return header

/-- `RecipientBlockAckAgreement::FillBlockAckBitmap`, of the scoreboard. -/
def fillBlockAckBitmap (w : BlockAckWindow) (header : CtrlBAckResponseHeader) :
    Option CtrlBAckResponseHeader :=
  match header.variant with
  | .basic | .multiTid => none
  | _ => (List.range w.getWinSize).foldlM w.report
    { header with startingSeq := w.winStart, bitmap := List.replicate header.bitmapLen 0 }

end BlockAckWindow

/-! ## 2. What is reported -/

/-- A frame for a window of that size. -/
structure Carries (bufferSize : Nat) (header : CtrlBAckResponseHeader) : Prop where
  basic : header.variant ≠ .basic
  multiTid : header.variant ≠ .multiTid
  allAck : header.allAck = false
  length : bufferSize ≤ header.bitmapLen * 8
  byte : header.bitmapLen < 2 ^ 8

/-- The number has its place in the window. -/
def InWindow (w : BlockAckWindow) (n : SequenceNumber) : Prop :=
  getDistance n w.winStart < w.getWinSize

/-- An MPDU with that number was received, and the number has been in the window ever since. -/
def ReceivedSince (bufferSize : Nat) (startingSeq : SequenceNumber) (calls : List Call)
    (n : SequenceNumber) : Prop :=
  ∃ before m after, calls = before ++ Call.mpdu m :: after ∧ m.sequenceNumber = n ∧
    ∀ more, more <+: after →
      ∀ r ∈ Reception.run bufferSize startingSeq (before ++ Call.mpdu m :: more),
        InWindow r.agreement.scoreboard n

/-! ## 3. The bitmap -/

namespace CtrlBAckResponseHeader

/-- The bit of the bitmap. -/
def marked (header : CtrlBAckResponseHeader) (i : Nat) : Bool :=
  (header.bitmap[i / 8]?.getD 0).getLsbD (i % 8)

end CtrlBAckResponseHeader

/-- While the bitmap is filled, for a window from `start` on. -/
structure Filling (start : Nat) (header : CtrlBAckResponseHeader) : Prop where
  basic : header.variant ≠ .basic
  multiTid : header.variant ≠ .multiTid
  allAck : header.allAck = false
  byte : header.bitmapLen < 2 ^ 8
  begins : header.startingSeq = start
  begins_lt : start < seqnoSpaceSize
  length : header.bitmap.length = header.bitmapLen

namespace Filling

variable {start i j : Nat} {header : CtrlBAckResponseHeader}

theorem nAckedMpdus_eq (h : Filling start header) : header.nAckedMpdus = header.bitmapLen * 8 :=
  if_neg h.basic

section

variable (h : Filling start header) (hi : i < header.bitmapLen * 8)
include h hi

theorem lt_space : i < 4096 := by
  have hbyte := h.byte
  omega

theorem isInBitmap_eq : header.isInBitmap ((start + i) % seqnoSpaceSize) = true := by
  have hgap := gap_mod (Nat.le_add_right start i) (Nat.add_lt_add_left (h.lt_space hi) start)
  rw [Nat.mod_eq_of_lt h.begins_lt, Nat.add_sub_cancel_left] at hgap
  unfold CtrlBAckResponseHeader.isInBitmap
  rw [h.begins, tmod_eq_gap _ h.begins_lt, hgap, h.nAckedMpdus_eq]
  exact decide_eq_true (Int.ofNat_lt.mpr hi)

theorem indexInBitmap_eq : header.indexInBitmap ((start + i) % seqnoSpaceSize) = some i := by
  have hlt := h.lt_space hi
  have hstart := h.begins_lt
  have hspace : seqnoSpaceSize = 4096 := rfl
  have hindex : (if start ≤ (start + i) % seqnoSpaceSize then
        toUint16 (((start + i) % seqnoSpaceSize : Nat) - start)
      else toUint16 ((seqnoSpaceSize : Int) - start + ((start + i) % seqnoSpaceSize : Nat))) =
      i := by
    unfold toUint16
    rcases Nat.lt_or_ge (start + i) seqnoSpaceSize with hbefore | hge
    · rw [Nat.mod_eq_of_lt hbefore, if_pos (Nat.le_add_right start i)]
      omega
    · rw [Nat.mod_eq_sub_mod hge, Nat.mod_eq_of_lt (by omega), if_neg (by omega)]
      omega
  unfold CtrlBAckResponseHeader.indexInBitmap
  rw [h.begins, h.nAckedMpdus_eq]
  dsimp only
  rw [hindex, if_pos hi]

theorem byte_at : ∃ byte, header.bitmap[i / 8]? = some byte := by
  have hlt : i / 8 < header.bitmap.length := by
    rw [h.length]
    exact Nat.div_lt_of_lt_mul (by rwa [mul_comm])
  exact ⟨_, getElem?_eq_getElem hlt⟩

theorem setReceivedPacket_eq :
    ∃ header', header.setReceivedPacket ((start + i) % seqnoSpaceSize) = some header' ∧
      Filling start header' ∧ header'.bitmapLen = header.bitmapLen ∧
      ∀ j, header'.marked j = (decide (j = i) || header.marked j) := by
  obtain ⟨byte, hbyte⟩ := h.byte_at hi
  refine ⟨{ header with bitmap := header.bitmap.set (i / 8) (byte ||| BitVec.twoPow 8 (i % 8)) },
    ?_, { h with length := length_set.trans h.length }, rfl, fun j => ?_⟩
  · unfold CtrlBAckResponseHeader.setReceivedPacket
    rw [if_pos (h.isInBitmap_eq hi), h.indexInBitmap_eq hi, Option.bind_eq_bind, bind_some]
    cases hvariant : header.variant with
    | basic => exact absurd hvariant h.basic
    | multiTid => exact absurd hvariant h.multiTid
    | _ =>
      show header.bitmap[i / 8]?.map _ = _
      rw [hbyte, BitVec.twoPow_eq, hvariant]
      rfl
  · show ((header.bitmap.set (i / 8) _)[j / 8]?.getD 0).getLsbD (j % 8) = _
    have hlt : i / 8 < header.bitmap.length := List.getElem?_eq_some_iff.mp hbyte |>.1
    rw [getElem?_set]
    by_cases hdiv : i / 8 = j / 8
    · rw [if_pos hdiv, if_pos hlt, getD_some, BitVec.getLsbD_or, BitVec.getLsbD_twoPow,
        CtrlBAckResponseHeader.marked, ← hdiv, hbyte, getD_some, Bool.or_comm]
      have hmod : (i % 8 = j % 8) ↔ j = i := by omega
      have hin : i % 8 < 8 := Nat.mod_lt i (by decide)
      rw [decide_eq_true hin, Bool.true_and, decide_eq_decide.mpr hmod]
    · have hne : j ≠ i := fun heq => hdiv (heq ▸ rfl)
      rw [if_neg hdiv, decide_eq_false hne, Bool.false_or]
      rfl

theorem isPacketReceived_eq :
    header.isPacketReceived ((start + i) % seqnoSpaceSize) = some (header.marked i) := by
  obtain ⟨byte, hbyte⟩ := h.byte_at hi
  have hbit : (decide (byte &&& BitVec.twoPow 8 (i % 8) ≠ 0)) = byte.getLsbD (i % 8) := by
    rw [BitVec.and_twoPow]
    cases byte.getLsbD (i % 8) with
    | true =>
      have hne : BitVec.twoPow 8 (i % 8) ≠ 0 := by
        intro hzero
        have htoNat := congrArg BitVec.toNat hzero
        rw [BitVec.toNat_twoPow_of_lt (Nat.mod_lt i (by decide))] at htoNat
        exact absurd htoNat (ne_of_gt (Nat.two_pow_pos _))
      exact decide_eq_true hne
    | false => rfl
  unfold CtrlBAckResponseHeader.isPacketReceived
  rw [h.allAck, Bool.and_false, if_neg Bool.false_ne_true, if_pos (h.isInBitmap_eq hi),
    h.indexInBitmap_eq hi, CtrlBAckResponseHeader.marked, hbyte, getD_some, ← hbit,
    BitVec.twoPow_eq]
  cases hvariant : header.variant with
  | basic => exact absurd hvariant h.basic
  | multiTid => exact absurd hvariant h.multiTid
  | _ =>
    show (header.bitmap[i / 8]?.bind fun byte => _) = _
    rw [hbyte]
    rfl

end

end Filling

/-! ## 4. The ring -/

namespace BlockAckWindow

/-- The bits in the order of the sequence numbers. -/
def bits (w : BlockAckWindow) : List Bool := w.window.rotate w.head

/-- The head is in the ring. -/
def HeadInside (w : BlockAckWindow) : Prop := 0 < w.getWinSize → w.head < w.getWinSize

section Ring

variable {w w' : BlockAckWindow} {count distance winStart i : Nat}

theorem length_bits (w : BlockAckWindow) : w.bits.length = w.getWinSize := length_rotate _ _

theorem isSet?_eq (hdistance : distance < w.getWinSize) :
    w.isSet? distance = w.bits[distance]? := by
  have hpos : w.window.length ≠ 0 := ne_of_gt (Nat.zero_lt_of_lt hdistance)
  rw [isSet?, index?, if_neg hpos, bind_some, bits, getElem?_rotate hdistance, add_comm]

theorem setAt_bits (h : w.setAt distance = some w') (hdistance : distance < w.getWinSize) :
    w'.bits = w.bits.set distance true ∧ w'.winStart = w.winStart ∧ w'.head = w.head := by
  obtain ⟨i, hi, rfl⟩ := map_eq_some_iff.mp h
  have hpos : w.window.length ≠ 0 := ne_of_gt (Nat.zero_lt_of_lt hdistance)
  rw [index?, if_neg hpos] at hi
  obtain rfl := Option.some.inj hi
  exact ⟨rotate_set hdistance true, rfl, rfl⟩

theorem clear_bits (count : Nat) {window : List Bool} {head : Nat} (hhead : head < window.length) :
    (clear window head count).1.rotate (clear window head count).2 =
        slide count (window.rotate head) ∧
      (clear window head count).2 < window.length := by
  induction count generalizing window head with
  | zero => exact ⟨slide_zero.symm, hhead⟩
  | succ count ih =>
    have hpos : 0 < window.length := Nat.zero_lt_of_lt hhead
    have hnext : (head + 1) % window.length < (window.set head false).length := by
      rw [length_set]
      exact Nat.mod_lt _ hpos
    obtain ⟨hbits, hlt⟩ := ih hnext
    rw [rotate_set_head hhead, slide_slide, add_comm 1] at hbits
    rw [length_set] at hlt
    exact ⟨hbits, hlt⟩

theorem reset_bits (w : BlockAckWindow) (winStart : Nat) :
    (w.reset winStart).bits = List.replicate w.getWinSize false := rotate_zero _

theorem headInside_reset (w : BlockAckWindow) (winStart : Nat) : (w.reset winStart).HeadInside := id

theorem advance_bits (count : Nat) (hhead : w.HeadInside) :
    (w.advance count).bits = slide count w.bits ∧ (w.advance count).HeadInside ∧
      (w.advance count).winStart = (w.winStart + count) % seqnoSpaceSize := by
  unfold advance
  by_cases hcount : w.window.length ≤ count
  · rw [if_pos hcount, reset_bits, slide_of_length_le ((length_bits w).trans_le hcount),
      length_bits]
    exact ⟨rfl, headInside_reset w _, rfl⟩
  · rw [if_neg hcount]
    have hpos : 0 < w.window.length := Nat.zero_lt_of_lt (Nat.lt_of_not_le hcount)
    obtain ⟨hbits, hlt⟩ := clear_bits count (hhead hpos)
    refine ⟨hbits, fun _ => ?_, rfl⟩
    exact hlt.trans_eq (length_clear w.window w.head count).symm

end Ring

end BlockAckWindow

/-! ## 5. The loop -/

variable {w : BlockAckWindow} {header : CtrlBAckResponseHeader}

theorem report_loop (h : Filling w.winStart header) {count : Nat} (hcount : count ≤ w.getWinSize)
    (hlength : w.getWinSize ≤ header.bitmapLen * 8) (hempty : ∀ j, header.marked j = false) :
    ∃ filled, (List.range count).foldlM w.report header = some filled ∧
      Filling w.winStart filled ∧ filled.bitmapLen = header.bitmapLen ∧
      ∀ j, filled.marked j = true ↔ j < count ∧ isOn w.bits j := by
  induction count with
  | zero =>
    refine ⟨header, rfl, h, rfl, fun j => ?_⟩
    rw [hempty j]
    exact ⟨fun hfalse => absurd hfalse Bool.false_ne_true,
      fun hlt => absurd hlt.1 (Nat.not_lt_zero j)⟩
  | succ count ih =>
    obtain ⟨filled, hloop, hfilled, hlen, hmarked⟩ := ih (Nat.le_of_succ_le hcount)
    have hbound : count < filled.bitmapLen * 8 := hlen ▸ (Nat.lt_of_lt_of_le hcount hlength)
    have hin : count < w.bits.length := (w.length_bits).symm ▸ hcount
    rw [range_succ, foldlM_append, hloop]
    show ∃ filled', (w.report filled count >>= pure) = some filled' ∧ _
    rw [bind_pure, BlockAckWindow.report, BlockAckWindow.isSet?_eq hcount, getElem?_eq_getElem hin]
    cases hbit : w.bits[count] with
    | true =>
      have hon : isOn w.bits count := by rw [isOn, getElem?_eq_getElem hin, hbit]
      obtain ⟨filled', hset, hfilled', hlen', hmarked'⟩ := hfilled.setReceivedPacket_eq hbound
      refine ⟨filled', hset, hfilled', hlen'.trans hlen, fun j => ?_⟩
      rw [hmarked' j, Bool.or_eq_true, decide_eq_true_iff, hmarked j]
      constructor
      · rintro (rfl | ⟨hlt, hj⟩)
        · exact ⟨Nat.lt_succ_self j, hon⟩
        · exact ⟨Nat.lt_succ_of_lt hlt, hj⟩
      · rintro ⟨hlt, hj⟩
        exact (Nat.lt_succ_iff_lt_or_eq.mp hlt).symm.imp_right fun hlt => ⟨hlt, hj⟩
    | false =>
      have hoff : ¬isOn w.bits count := by
        rw [isOn, getElem?_eq_getElem hin, hbit]
        exact fun h => Bool.false_ne_true (Option.some.inj h)
      refine ⟨filled, rfl, hfilled, hlen, fun j => ?_⟩
      rw [hmarked j]
      constructor
      · rintro ⟨hlt, hj⟩
        exact ⟨Nat.lt_succ_of_lt hlt, hj⟩
      · rintro ⟨hlt, hj⟩
        rcases Nat.lt_succ_iff_lt_or_eq.mp hlt with hlt | rfl
        · exact ⟨hlt, hj⟩
        · exact absurd hj hoff

theorem Carries.filling {bufferSize start : Nat} (h : Carries bufferSize header)
    (hstart : start < seqnoSpaceSize) :
    Filling start { header with
      startingSeq := start, bitmap := List.replicate header.bitmapLen 0 } where
  basic := h.basic
  multiTid := h.multiTid
  allAck := h.allAck
  byte := h.byte
  begins := rfl
  begins_lt := hstart
  length := length_replicate

/-- The frame reports the bits. -/
theorem fillBlockAckBitmap_spec (h : Carries w.getWinSize header)
    (hstart : w.winStart < seqnoSpaceSize) :
    ∃ filled, w.fillBlockAckBitmap header = some filled ∧ filled.startingSeq = w.winStart ∧
      ∀ i < w.getWinSize, ∃ bit,
        filled.isPacketReceived ((w.winStart + i) % seqnoSpaceSize) = some bit ∧
          (bit = true ↔ isOn w.bits i) := by
  have hempty : ∀ j, CtrlBAckResponseHeader.marked { header with
      startingSeq := w.winStart, bitmap := List.replicate header.bitmapLen 0 } j = false := by
    intro j
    show ((List.replicate header.bitmapLen (0 : BitVec 8))[j / 8]?.getD 0).getLsbD (j % 8) = false
    rw [getElem?_replicate]
    split
    · exact BitVec.getLsbD_zero
    · exact BitVec.getLsbD_zero
  obtain ⟨filled, hloop, hfilled, hlen, hmarked⟩ :=
    report_loop (h.filling hstart) (le_refl _) h.length hempty
  refine ⟨filled, ?_, hfilled.begins, fun i hi => ⟨filled.marked i, ?_, ?_⟩⟩
  · unfold BlockAckWindow.fillBlockAckBitmap
    cases hvariant : header.variant with
    | basic => exact absurd hvariant h.basic
    | multiTid => exact absurd hvariant h.multiTid
    | _ =>
      rw [hvariant] at hloop
      exact hloop
  · exact hfilled.isPacketReceived_eq (hlen ▸ lt_of_lt_of_le hi h.length)
  · rw [hmarked i, and_iff_right hi]

/-! ## 6. Steps -/

/-- The window is moved on, and then a number may be received. -/
structure Moves (count : Nat) (received : Nat → Prop) (w w' : BlockAckWindow) : Prop where
  size : w'.getWinSize = w.getWinSize
  head : w'.HeadInside
  start : w'.winStart = (w.winStart + count) % seqnoSpaceSize
  within : count + w.getWinSize ≤ seqnoSpaceSize
  on : ∀ i < w.getWinSize, isOn w'.bits i ↔
    isOn w.bits (count + i) ∨ received ((w'.winStart + i) % seqnoSpaceSize)

section Moves

variable {w w' w'' : BlockAckWindow} {count distance : Nat}

theorem moves_of_slide (hsize : w'.getWinSize = w.getWinSize) (hhead : w'.HeadInside)
    (hstart : w'.winStart = (w.winStart + count) % seqnoSpaceSize)
    (hwithin : count + w.getWinSize ≤ seqnoSpaceSize) (hbits : w'.bits = slide count w.bits)
    {received : Nat → Prop} (hnone : ∀ i < w.getWinSize,
      ¬received ((w'.winStart + i) % seqnoSpaceSize)) : Moves count received w w' where
  size := hsize
  head := hhead
  start := hstart
  within := hwithin
  on i hi := by
    rw [hbits, isOn_slide, or_iff_left (hnone i hi)]

theorem moves_zero (hhead : w.HeadInside) (hstart : w.winStart < seqnoSpaceSize)
    (hsize : w.getWinSize ≤ seqnoSpaceSize) {received : Nat → Prop}
    (hnone : ∀ i < w.getWinSize, ¬received ((w.winStart + i) % seqnoSpaceSize)) :
    Moves 0 received w w :=
  moves_of_slide rfl hhead (Nat.mod_eq_of_lt hstart).symm (by rwa [zero_add]) slide_zero.symm hnone

/-- A bit is set after the window was moved, that of the number that is received. -/
theorem Moves.setAt (h : Moves count (fun _ => False) w w') (hset : w'.setAt distance = some w'')
    (hdistance : distance < w.getWinSize) :
    Moves count (· = (w'.winStart + distance) % seqnoSpaceSize) w w'' := by
  have hin : distance < w'.bits.length := by
    rw [BlockAckWindow.length_bits, h.size]
    exact hdistance
  obtain ⟨hbits, hstart, hhead⟩ := BlockAckWindow.setAt_bits hset (h.size.symm ▸ hdistance)
  have hsize := BlockAckWindow.getWinSize_of_setAt hset
  have hspace : w.getWinSize ≤ seqnoSpaceSize := Nat.le_trans (Nat.le_add_left _ _) h.within
  refine ⟨hsize.trans h.size, ?_, hstart.trans h.start, h.within, fun i hi => ?_⟩
  · show 0 < w''.getWinSize → w''.head < w''.getWinSize
    rw [hsize, hhead]
    exact h.head
  · have hplace := add_mod_inj (Nat.lt_of_lt_of_le hi hspace)
      (Nat.lt_of_lt_of_le hdistance hspace) w'.winStart
    rw [hbits, isOn_set hin, h.on i hi, or_false, hstart, hplace, or_comm]

end Moves

/-- An MPDU moves the window when it is beyond it, and is marked unless it is old. -/
theorem markReceived_moves {w' : BlockAckWindow} {m : Mpdu} (hhead : w.HeadInside)
    (hstart : w.winStart < seqnoSpaceSize) (hsize : w.getWinSize ≤ 1024)
    (h : RecipientBlockAckAgreement.markReceived w m = some w') :
    ∃ count, Moves count (· = (m.sequenceNumber : Nat)) w w' := by
  have hgap := getDistance_eq_gap m.sequenceNumber hstart
  have hplace := add_gap_mod m.sequenceNumber.isLt w.winStart
  rw [Nat.mod_eq_of_lt hstart, ← hgap] at hplace
  have hspace : w.getWinSize ≤ seqnoSpaceSize := Nat.le_trans hsize (by decide)
  rw [RecipientBlockAckAgreement.markReceived, toUint16_getDistance _ hstart] at h
  dsimp only at h
  have hlt : getDistance m.sequenceNumber w.winStart < seqnoSpaceSize :=
    hgap ▸ gap_lt (by decide) _ _
  generalize getDistance m.sequenceNumber w.winStart = distance at h hplace hlt
  have hfirst : Moves 0 (fun _ => False) w w := moves_zero hhead hstart hspace fun _ _ => not_false
  by_cases hin : distance < w.getWinSize
  · rw [if_pos hin] at h
    have hmoves := hfirst.setAt h hin
    rw [hplace] at hmoves
    exact ⟨0, hmoves⟩
  · rw [if_neg hin] at h
    by_cases hhalf : distance < seqnoSpaceHalfSize
    · rw [if_pos hhalf, BlockAckWindow.getWinSize_advance] at h
      have hpos : 0 < w.getWinSize := by
        refine Nat.pos_of_ne_zero fun hzero => ?_
        have hnone : (w.advance (distance - w.getWinSize + 1)).window.length = 0 :=
          (BlockAckWindow.getWinSize_advance w _).trans hzero
        rw [BlockAckWindow.setAt, BlockAckWindow.index?, if_pos hnone] at h
        cases h
      obtain ⟨hbits, hhead', hstart'⟩ :=
        BlockAckWindow.advance_bits (distance - w.getWinSize + 1) hhead
      have hmoved : Moves (distance - w.getWinSize + 1) (fun _ => False) w
          (w.advance (distance - w.getWinSize + 1)) :=
        moves_of_slide (BlockAckWindow.getWinSize_advance w _) hhead' hstart'
          (by have hhalf' : distance < 2048 := hhalf
              show _ ≤ 4096
              omega) hbits fun _ _ => not_false
      have hmoves := hmoved.setAt h (Nat.sub_one_lt_of_lt hpos)
      have hlast : distance - w.getWinSize + 1 + (w.getWinSize - 1) = distance := by omega
      rw [hstart', Nat.mod_add_mod, Nat.add_assoc, hlast, hplace] at hmoves
      exact ⟨_, hmoves⟩
    · rw [if_neg hhalf] at h
      obtain rfl := Option.some.inj h
      refine ⟨0, moves_zero hhead hstart hspace fun i hi heq => hin ?_⟩
      rw [← hplace, add_mod_inj (Nat.lt_of_lt_of_le hi hspace) hlt] at heq
      exact heq ▸ hi

/-- A Block Ack request moves the window to begin with its number, unless that is old. -/
theorem scoreboardFrom_moves (startingSequenceNumber : SequenceNumber) (hhead : w.HeadInside)
    (hstart : w.winStart < seqnoSpaceSize) (hsize : w.getWinSize ≤ 1024) :
    ∃ count, Moves count (fun _ => False) w
      (RecipientBlockAckAgreement.scoreboardFrom w startingSequenceNumber) := by
  have hgap := getDistance_eq_gap startingSequenceNumber hstart
  have hplace := add_gap_mod startingSequenceNumber.isLt w.winStart
  rw [Nat.mod_eq_of_lt hstart, ← hgap] at hplace
  have hspace : w.getWinSize ≤ seqnoSpaceSize := Nat.le_trans hsize (by decide)
  rw [RecipientBlockAckAgreement.scoreboardFrom, toUint16_getDistance _ hstart]
  generalize getDistance startingSequenceNumber w.winStart = distance at hplace
  by_cases hin : 0 < distance ∧ distance < w.getWinSize
  · rw [if_pos hin]
    obtain ⟨hbits, hhead', hstart'⟩ := BlockAckWindow.advance_bits distance hhead
    exact ⟨distance, moves_of_slide (BlockAckWindow.getWinSize_advance w _) hhead' hstart'
      (Nat.le_trans (Nat.add_le_add (Nat.le_trans hin.2.le hsize) hsize) (by decide)) hbits
      fun _ _ => not_false⟩
  · rw [if_neg hin]
    by_cases hhalf : 0 < distance ∧ distance < seqnoSpaceHalfSize
    · rw [if_pos hhalf]
      have hge : w.bits.length ≤ distance := by
        rw [BlockAckWindow.length_bits]
        exact Nat.le_of_not_lt fun hlt => hin ⟨hhalf.1, hlt⟩
      refine ⟨distance, moves_of_slide (BlockAckWindow.getWinSize_reset w _)
        (BlockAckWindow.headInside_reset w _) hplace.symm
        (Nat.le_trans (Nat.add_le_add hhalf.2.le hsize) (by decide)) ?_ fun _ _ => not_false⟩
      rw [BlockAckWindow.reset_bits, slide_of_length_le hge, BlockAckWindow.length_bits]
    · rw [if_neg hhalf]
      exact ⟨0, moves_zero hhead hstart hspace fun _ _ => not_false⟩

/-- The sequence number that the call brings. -/
def Call.Brings (call : Call) (n : Nat) : Prop := ∃ m, call = .mpdu m ∧ (m.sequenceNumber : Nat) = n

theorem scoreboard_notifyReceivedBar (agreement : RecipientBlockAckAgreement)
    (startingSequenceNumber : SequenceNumber) :
    (agreement.notifyReceivedBar startingSequenceNumber).1.scoreboard =
      RecipientBlockAckAgreement.scoreboardFrom agreement.scoreboard startingSequenceNumber := by
  rw [RecipientBlockAckAgreement.notifyReceivedBar]
  dsimp only
  split <;> rfl

theorem notify_moves {agreement : RecipientBlockAckAgreement} {call : Call}
    {result : RecipientBlockAckAgreement × List Mpdu}
    (hhead : agreement.scoreboard.HeadInside)
    (hstart : agreement.scoreboard.winStart < seqnoSpaceSize)
    (hsize : agreement.scoreboard.getWinSize ≤ 1024) (h : agreement.notify call = some result) :
    ∃ count, Moves count call.Brings agreement.scoreboard result.1.scoreboard := by
  cases call with
  | mpdu m =>
    obtain ⟨scoreboard, hmark, rfl⟩ := map_eq_some_iff.mp h
    obtain ⟨count, hmoves⟩ := markReceived_moves hhead hstart hsize hmark
    rw [scoreboard_reorder]
    refine ⟨count, { hmoves with on := fun i hi => (hmoves.on i hi).trans (or_congr_right ?_) }⟩
    constructor
    · intro heq
      exact ⟨m, rfl, heq.symm⟩
    · rintro ⟨m', hm', heq⟩
      cases hm'
      exact heq.symm
  | bar startingSequenceNumber =>
    obtain rfl := Option.some.inj h
    obtain ⟨count, hmoves⟩ := scoreboardFrom_moves startingSequenceNumber hhead hstart hsize
    rw [scoreboard_notifyReceivedBar]
    refine ⟨count, { hmoves with on := fun i hi => (hmoves.on i hi).trans (or_congr_right ?_) }⟩
    exact ⟨False.elim, fun ⟨_, hbar, _⟩ => nomatch hbar⟩

/-! ## 7. Runs -/

section Runs

variable {bufferSize : Nat} {startingSeq : SequenceNumber} {calls : List Call} {call : Call}
  {r r' : Reception} {n : SequenceNumber}

theorem ReceivedSince.inWindow (h : ReceivedSince bufferSize startingSeq calls n)
    (hr : r ∈ run bufferSize startingSeq calls) : InWindow r.agreement.scoreboard n := by
  obtain ⟨before, m, after, rfl, -, hwindow⟩ := h
  exact hwindow after prefix_rfl r hr

theorem receivedSince_concat (hr : r ∈ run bufferSize startingSeq (calls ++ [call]))
    (hwindow : InWindow r.agreement.scoreboard n) :
    ReceivedSince bufferSize startingSeq (calls ++ [call]) n ↔
      ReceivedSince bufferSize startingSeq calls n ∨ call.Brings n := by
  constructor
  · rintro ⟨before, m, after, heq, hnumber, hafter⟩
    rcases eq_nil_or_concat after with rfl | ⟨after, last, rfl⟩
    · obtain ⟨-, hlast⟩ := append_inj' heq rfl
      exact .inr ⟨m, head_eq_of_cons_eq hlast, congrArg Fin.val hnumber⟩
    · rw [concat_eq_append, ← cons_append, ← append_assoc] at heq
      obtain ⟨rfl, -⟩ := append_inj' heq rfl
      refine .inl ⟨before, m, after, rfl, hnumber, fun more hmore => hafter more ?_⟩
      rw [concat_eq_append]
      exact hmore.trans (prefix_append after [last])
  · rintro (⟨before, m, after, rfl, hnumber, hafter⟩ | ⟨m, rfl, hnumber⟩)
    · refine ⟨before, m, after ++ [call], ?_, hnumber, fun more hmore r' hr' => ?_⟩
      · rw [append_assoc, cons_append]
      · rcases prefix_concat_iff.mp hmore with rfl | hmore
        · rw [append_assoc, cons_append] at hr
          exact mem_unique hr hr' ▸ hwindow
        · exact hafter more hmore r' hr'
    · refine ⟨calls, m, [], rfl, Fin.ext hnumber, fun more hmore r' hr' => ?_⟩
      obtain rfl := prefix_nil.mp hmore
      exact mem_unique hr hr' ▸ hwindow

/-- The bits are those of the numbers that were received. -/
structure Exact (bufferSize : Nat) (startingSeq : SequenceNumber) (calls : List Call)
    (r : Reception) : Prop where
  size : r.agreement.scoreboard.getWinSize = bufferSize
  head : r.agreement.scoreboard.HeadInside
  start_lt : r.agreement.scoreboard.winStart < seqnoSpaceSize
  on : ∀ i < bufferSize, ∀ n : SequenceNumber,
    (n : Nat) = (r.agreement.scoreboard.winStart + i) % seqnoSpaceSize →
      (isOn r.agreement.scoreboard.bits i ↔ ReceivedSince bufferSize startingSeq calls n)

theorem exact_init : Exact bufferSize startingSeq [] (.init bufferSize startingSeq) where
  size := length_replicate
  head := id
  start_lt := startingSeq.isLt
  on i _ n _ := by
    have hbits : (init bufferSize startingSeq).agreement.scoreboard.bits =
        List.replicate bufferSize false := rotate_zero _
    rw [hbits]
    refine ⟨fun h => absurd h (not_isOn_replicate bufferSize), ?_⟩
    rintro ⟨before, m, after, heq, -⟩
    exact absurd heq.symm (append_ne_nil_of_right_ne_nil _ (cons_ne_nil _ _))

theorem Exact.next (hsize : bufferSize ≤ 1024) (h : Exact bufferSize startingSeq calls r)
    (hr : r ∈ run bufferSize startingSeq calls)
    {result : RecipientBlockAckAgreement × List Mpdu}
    (hnotify : r.agreement.notify call = some result)
    (hr' : r.after call result ∈ run bufferSize startingSeq (calls ++ [call])) :
    Exact bufferSize startingSeq (calls ++ [call]) (r.after call result) := by
  obtain ⟨count, hmoves⟩ := notify_moves h.head h.start_lt (h.size.trans_le hsize) hnotify
  have hstart_lt : result.1.scoreboard.winStart < seqnoSpaceSize := by
    rw [hmoves.start]
    exact Nat.mod_lt _ (by decide)
  have hwithin := hmoves.within
  have hon := hmoves.on
  rw [h.size] at hwithin hon
  refine ⟨hmoves.size.trans h.size, hmoves.head, hstart_lt, fun i hi n hn => ?_⟩
  have hspace : i < seqnoSpaceSize := by omega
  have hwindow : InWindow result.1.scoreboard n := by
    have hgap := gap_mod (Nat.le_add_right result.1.scoreboard.winStart i)
      (Nat.add_lt_add_left hspace _)
    rw [InWindow, getDistance_eq_gap _ hstart_lt, hn, hmoves.size, h.size]
    rw [Nat.mod_eq_of_lt hstart_lt, Nat.add_sub_cancel_left] at hgap
    exact hgap.trans_lt hi
  have hplace : (n : Nat) = (r.agreement.scoreboard.winStart + (count + i)) % seqnoSpaceSize := by
    have hn' : (n : Nat) = (result.1.scoreboard.winStart + i) % seqnoSpaceSize := hn
    rw [hn', hmoves.start, Nat.mod_add_mod, Nat.add_assoc]
  rw [receivedSince_concat hr' hwindow]
  show isOn result.1.scoreboard.bits i ↔ _
  rw [hon i hi, ← show (n : Nat) = (result.1.scoreboard.winStart + i) % seqnoSpaceSize from hn]
  refine or_congr_left ?_
  by_cases hin : count + i < bufferSize
  · exact h.on _ hin n hplace
  · refine iff_of_false (fun hset => ?_) fun hrecv => hin ?_
    · have hlt := List.getElem?_eq_some_iff.mp hset |>.1
      rw [BlockAckWindow.length_bits, h.size] at hlt
      exact hin hlt
    · have hold := hrecv.inWindow hr
      have hgap := gap_mod (Nat.le_add_right r.agreement.scoreboard.winStart (count + i))
        (Nat.add_lt_add_left (show count + i < seqnoSpaceSize by omega) _)
      rw [Nat.mod_eq_of_lt h.start_lt, Nat.add_sub_cancel_left, ← hplace] at hgap
      rwa [InWindow, getDistance_eq_gap _ h.start_lt, hgap, h.size] at hold

theorem exact_of_run (hsize : bufferSize ≤ 1024) (hr : r ∈ run bufferSize startingSeq calls) :
    Exact bufferSize startingSeq calls r := by
  induction calls using List.reverseRecOn generalizing r with
  | nil => exact mem_unique (Option.mem_some_self _) hr ▸ exact_init
  | append_singleton calls call ih =>
    have hr' := hr
    rw [run, foldl_append] at hr'
    obtain ⟨r₀, hr₀, hnext⟩ := Option.bind_eq_some_iff.mp hr'
    obtain ⟨result, hnotify, rfl⟩ := map_eq_some_iff.mp hnext
    exact (ih hr₀).next hsize hr₀ hnotify hr

theorem carries_getBlockAckType {type : BlockAckVariant × Nat}
    (h : getBlockAckType true bufferSize = some type) :
    Carries bufferSize (.setType type) := by
  obtain ⟨length, hfind, rfl⟩ := map_eq_some_iff.mp h
  have hfound := find?_some hfind
  have hle : bufferSize ≤ length := of_decide_eq_true hfound
  have hlengths : ∀ length ∈ [64, 256, 512, 1024],
      length / 8 * 8 = length ∧ length / 8 < 2 ^ 8 := by decide
  obtain ⟨hmul, hbyte⟩ := hlengths length (mem_of_find?_eq_some hfind)
  exact ⟨nofun, nofun, rfl, hle.trans_eq hmul.symm, hbyte⟩

end Runs

/-- In every state of a run, the frame reports a number of the window when it was received since it
came into the window; the ring is a list of bits that `Advance` slides and `Reset` clears. -/
theorem bitmap_exact {bufferSize : Nat} (hsize : bufferSize ≤ 1024) {startingSeq : SequenceNumber}
    {calls : List Call} {r : Reception} (hr : r ∈ Reception.run bufferSize startingSeq calls)
    {header : CtrlBAckResponseHeader} (hheader : Carries bufferSize header) :
    (∃ filled, r.agreement.scoreboard.fillBlockAckBitmap header = some filled ∧
      filled.startingSeq = r.agreement.scoreboard.winStart ∧
      ∀ i < bufferSize, ∀ n : SequenceNumber,
        (n : Nat) = (r.agreement.scoreboard.winStart + i) % seqnoSpaceSize →
          ∃ bit, filled.isPacketReceived n = some bit ∧
            (bit = true ↔ ReceivedSince bufferSize startingSeq calls n)) ∧
      (∀ count, (r.agreement.scoreboard.advance count).bits =
        slide count r.agreement.scoreboard.bits) ∧
      ∀ winStart, (r.agreement.scoreboard.reset winStart).bits =
        List.replicate bufferSize false := by
  have h := exact_of_run hsize hr
  obtain ⟨filled, hfill, hstart, hbits⟩ :=
    fillBlockAckBitmap_spec (h.size.symm ▸ hheader) h.start_lt
  refine ⟨⟨filled, hfill, hstart, fun i hi n hn => ?_⟩,
    fun count => (BlockAckWindow.advance_bits count h.head).1, fun winStart => ?_⟩
  · obtain ⟨bit, hread, hon⟩ := hbits i (h.size.symm ▸ hi)
    exact ⟨bit, hn ▸ hread, hon.trans (h.on i hi n hn)⟩
  · rw [BlockAckWindow.reset_bits, h.size]

/-- An MPDU with number 1, in a window that begins with number 4095. -/
theorem bitmap_exact_across_zero :
    ∃ r ∈ Reception.run 64 4095 [.mpdu ⟨0, 1⟩], ∃ filled,
      r.agreement.scoreboard.fillBlockAckBitmap (.setType (.compressed, 8)) = some filled ∧
        ∃ bit, filled.isPacketReceived 1 = some bit ∧
          (bit = true ↔ ReceivedSince 64 4095 [.mpdu ⟨0, 1⟩] 1) := by
  have hsome : (Reception.run 64 4095 [.mpdu ⟨0, 1⟩]).map
      (fun r => r.agreement.scoreboard.winStart) = some 4095 := by decide +kernel
  obtain ⟨r, hr, hstart⟩ := Option.map_eq_some_iff.mp hsome
  obtain ⟨filled, hfill, -, hbits⟩ :=
    (bitmap_exact (by decide) hr (carries_getBlockAckType rfl)).1
  exact ⟨r, hr, filled, hfill, hbits 2 (by decide) 1 (by rw [hstart]; rfl)⟩

end MoeJit.Wifi
