import MoeJit.Internet.SequenceNumber
import MoeJit.Lib.Memory

/-!
# TCP headers and their options

A header is written with its options and padded to words with END options. It is read back with its
options, and with an END option when there is padding. What is read may be any bytes: the options
are skipped by the size that each of them reads, and an option of an unknown kind with the length 0
is no progress.

`deserialize` ends unless it comes to such an option (`ends_iff`).

Checksums are computed from addresses that are no part of the header: any value may have been
written.
-/

namespace MoeJit.Tcp

open Bytes ByteReader ByteMemory

/-! ## 1. Options -/

inductive TcpOption
  /-- `TcpOptionEnd`. -/
  | eol
  | nop
  | mss (mss : BitVec 16)
  | winScale (scale : Byte)
  | sackPermitted
  | sack (sackList : List (SequenceNumber32 × SequenceNumber32))
  | ts (timestamp echo : BitVec 32)
  | unknown (kind size : Byte) (content : List Byte)
  deriving DecidableEq

namespace TcpOption

def isKindKnown (kind : Byte) : Bool :=
  kind = 0 || kind = 1 || kind = 2 || kind = 3 || kind = 4 || kind = 5 || kind = 8

def getKind : TcpOption → Byte
  | eol => 0
  | nop => 1
  | mss _ => 2
  | winScale _ => 3
  | sackPermitted => 4
  | sack _ => 5
  | ts _ _ => 8
  | unknown kind _ _ => kind

/-- An option that has just been constructed. -/
def createOption (kind : Byte) : TcpOption :=
  if kind = 0 then eol
  else if kind = 2 then mss 1460
  else if kind = 1 then nop
  else if kind = 8 then ts 0 0
  else if kind = 3 then winScale 0
  else if kind = 4 then sackPermitted
  else if kind = 5 then sack []
  else unknown 0xff 0 []

/-- The size is added up in 32 bits. -/
def getSerializedSize : TcpOption → Nat
  | eol => 1
  | nop => 1
  | mss _ => 4
  | winScale _ => 3
  | sackPermitted => 2
  | sack sackList => (2 + sackList.length * 8) % 4294967296
  | ts _ _ => 10
  | unknown _ size _ => size.toNat

def sackBlock (block : SequenceNumber32 × SequenceNumber32) : List Byte :=
  put (k := 4) block.1.value ++ put (k := 4) block.2.value

/-- What is written. -/
def serialize : TcpOption → List Byte
  | eol => [0]
  | nop => [1]
  | mss value => [2, 4] ++ put (k := 2) value
  | winScale scale => [3, 3, scale]
  | sackPermitted => [4, 2]
  | sack sackList =>
    [5, BitVec.ofNat 8 (sackList.length * 8 + 2)] ++ sackList.flatMap sackBlock
  | ts timestamp echo => [8, 10] ++ put (k := 4) timestamp ++ put (k := 4) echo
  | unknown kind size content => if size = 0 then [] else kind :: size :: content

/-- The blocks from an address on. -/
def readBlocks (m : Memory) : Nat → Nat → List (SequenceNumber32 × SequenceNumber32)
  | _, 0 => []
  | i, n + 1 => (⟨word 4 m i⟩, ⟨word 4 m (i + 4)⟩) :: readBlocks m (i + 8) n

/-- `(size - 2) / 8`, which is 0 when the size is less than 2. -/
def sackCount (size : Byte) : Nat := (((size.toNat : Int) - 2).tdiv 8).toNat

/-- The kind is checked, then the length, and the rest is read. -/
def deserializeFixed (op : TcpOption) (m : Memory) (i : Nat) (size : Byte) (value : TcpOption) :
    TcpOption × Nat :=
  if m i ≠ op.getKind then (op, 0)
  else if m (i + 1) ≠ size then (op, 0)
  else (value, value.getSerializedSize)

/-- The option after `Deserialize`, and what that returns. There is no result when it aborts. -/
def deserialize (op : TcpOption) (m : Memory) (i : Nat) : Option (TcpOption × Nat) :=
  match op with
  | eol => some (eol, if m i ≠ 0 then 0 else 1)
  | nop => some (nop, if m i ≠ 1 then 0 else 1)
  | mss old =>
    if m i ≠ 2 then some (mss old, 0)
    else if m (i + 1) ≠ 4 then none
    else some (mss (word 2 m (i + 2)), 4)
  | winScale old => some (deserializeFixed (winScale old) m i 3 (winScale (m (i + 2))))
  | sackPermitted => some (deserializeFixed sackPermitted m i 2 sackPermitted)
  | sack old =>
    if m i ≠ 5 then some (sack old, 0)
    else
      let read := sack (readBlocks m (i + 2) (sackCount (m (i + 1))))
      some (read, read.getSerializedSize)
  | ts timestamp echo =>
    some (deserializeFixed (ts timestamp echo) m i 10 (ts (word 4 m (i + 2)) (word 4 m (i + 6))))
  | unknown _ _ content =>
    if m (i + 1) < 2 ∨ 40 < m (i + 1) then some (unknown (m i) (m (i + 1)) content, 0)
    else
      let size := (m (i + 1)).toNat
      some (unknown (m i) (m (i + 1)) (read m (i + 2) (size - 2)), size)

end TcpOption

/-! ## 2. Headers -/

structure TcpHeader where
  sourcePort : BitVec 16
  destinationPort : BitVec 16
  sequenceNumber : SequenceNumber32
  ackNumber : SequenceNumber32
  /-- In words. -/
  length : Nat := 5
  flags : Byte
  windowSize : BitVec 16
  urgentPointer : BitVec 16
  options : List TcpOption := []
  optionsLen : Nat := 0
  deriving DecidableEq

namespace TcpHeader

def maxOptionsLen : Nat := 40

def calculateHeaderLength (h : TcpHeader) : Nat :=
  let len := h.options.foldl (fun len op => (len + op.getSerializedSize) % 4294967296) 20
  (if len % 4 ≠ 0 then (len + (4 - len % 4)) % 4294967296 else len) / 4 % 256

def getSerializedSize (h : TcpHeader) : Nat := h.calculateHeaderLength * 4

/-- Whether the option was accepted. -/
def appendOption (h : TcpHeader) (option : TcpOption) : TcpHeader × Bool :=
  if (h.optionsLen + option.getSerializedSize) % 4294967296 ≤ maxOptionsLen then
    if !TcpOption.isKindKnown option.getKind then (h, false)
    else if option.getKind ≠ 0 then
      let optionsLen := (h.optionsLen + option.getSerializedSize) % 256
      ({ h with
          options := h.options ++ [option]
          optionsLen
          length := (20 + 3 + optionsLen) / 4 % 256 }, true)
    else (h, true)
  else (h, false)

/-- The first twenty bytes, without a checksum. -/
def fixedPart (h : TcpHeader) : List Byte :=
  put (k := 2) h.sourcePort ++ put (k := 2) h.destinationPort ++
    put (k := 4) h.sequenceNumber.value ++ put (k := 4) h.ackNumber.value ++
    put (k := 2) (BitVec.ofNat 16 h.length <<< 12 ||| h.flags.setWidth 16) ++
    put (k := 2) h.windowSize ++ [0, 0] ++ put (k := 2) h.urgentPointer

/-- The options, each where the sizes of the ones before it lead to. -/
def optionChunks : Nat → List TcpOption → List Chunk
  | _, [] => []
  | i, op :: ops => (i, op.serialize) :: optionChunks (i + op.getSerializedSize) ops

/-- `optionLen` after the loop over the options. -/
def serializedOptionsLen (h : TcpHeader) : Nat :=
  h.options.foldl (fun len op => (len + op.getSerializedSize) % 4294967296) 0

/-- END options, until the length is a multiple of four. -/
def padding (optionLen : Nat) : List Byte := List.replicate ((4 - optionLen % 4) % 4) 0

/-- What is written, with the checksum that is written if there is to be one. -/
def serialize (h : TcpHeader) (checksum : Option (BitVec 16)) : List Chunk :=
  (0, h.fixedPart) :: optionChunks 20 h.options ++
    [(20 + (h.options.map TcpOption.getSerializedSize).sum, padding h.serializedOptionsLen)] ++
    checksum.toList.map fun checksum => (16, put (k := 2) checksum)

/-- The fields before the options. -/
def readFields (m : Memory) : TcpHeader where
  sourcePort := word 2 m 0
  destinationPort := word 2 m 2
  sequenceNumber := ⟨word 4 m 4⟩
  ackNumber := ⟨word 4 m 8⟩
  length := (word 2 m 12).toNat / 4096
  flags := (word 2 m 12).setWidth 8
  windowSize := word 2 m 14
  urgentPointer := word 2 m 18

/-- Where the loop over the options is. -/
structure Parse where
  i : Nat
  optionLen : Nat
  header : TcpHeader

/-- What one round of the loop does. -/
inductive Round
  | aborts
  | breaks
  | goesOn (s : Parse)

/-- Adds an option that was read. -/
def Parse.push (s : Parse) (op : TcpOption) (optionSize : Nat) : Parse where
  i := s.i + optionSize
  optionLen := s.optionLen - optionSize
  header := { s.header with
    options := s.header.options ++ [op]
    optionsLen := (s.header.optionsLen + optionSize) % 256 }

/-- The bytes after an END option. -/
def Parse.discardPadding (s : Parse) : Parse where
  i := s.i + s.optionLen
  optionLen := 0
  header := { s.header with optionsLen := (s.header.optionsLen + s.optionLen) % 256 }

def round (m : Memory) (s : Parse) : Round :=
  match (TcpOption.createOption (m s.i)).deserialize m s.i with
  | none => .aborts
  | some (op, optionSize) =>
    if optionSize ≠ op.getSerializedSize then .breaks
    else if s.optionLen ≥ optionSize then
      let s := s.push op optionSize
      .goesOn (if op.getKind = 0 then s.discardPadding else s)
    else .breaks

/-- How the parse ends. -/
inductive Outcome
  | aborted
  | returned (header : TcpHeader) (size : Nat)
  deriving DecidableEq

/-- The loop, with no result when the rounds are used up. -/
def parseOptions (m : Memory) : Nat → Parse → Option Outcome
  | 0, _ => none
  | rounds + 1, s =>
    if s.optionLen = 0 then some (.returned s.header s.header.getSerializedSize)
    else
      match round m s with
      | .aborts => some .aborted
      | .breaks => some (.returned s.header s.header.getSerializedSize)
      | .goesOn s => parseOptions m rounds s

/-- `(m_length - 5) * 4`, in 32 bits. -/
def optionLen (length : Nat) : Nat := ((((length : Int) - 5) * 4) % 4294967296).toNat

def deserialize (m : Memory) (rounds : Nat) : Option Outcome :=
  let header := readFields m
  if optionLen header.length > maxOptionsLen then some (.returned header 20)
  else parseOptions m rounds { i := 20, optionLen := optionLen header.length, header }

end TcpHeader

/-! ## 3. The way through the options -/

/-- How far the bytes of an option lead. None, where the options end. -/
def optionSize? (m : Memory) (i : Nat) : Option Nat :=
  if m i = 0 then none
  else if m i = 1 then some 1
  else if m i = 2 then if m (i + 1) = 4 then some 4 else none
  else if m i = 3 then if m (i + 1) = 3 then some 3 else none
  else if m i = 4 then if m (i + 1) = 2 then some 2 else none
  else if m i = 5 then some (2 + TcpOption.sackCount (m (i + 1)) * 8)
  else if m i = 8 then if m (i + 1) = 10 then some 10 else none
  else if m (i + 1) < 2 ∨ 40 < m (i + 1) then none
  else some (m (i + 1)).toNat

/-- An option of an unknown kind with length 0. -/
def EmptyUnknown (m : Memory) (i : Nat) : Prop :=
  TcpOption.isKindKnown (m i) = false ∧ m (i + 1) = 0

/-- On the way through the options, with some bytes left, there is an empty option of an unknown
kind. -/
inductive MeetsEmptyUnknown (m : Memory) : Nat → Nat → Prop
  | here {i optionLen : Nat} (hpos : 0 < optionLen) (hempty : EmptyUnknown m i) :
      MeetsEmptyUnknown m i optionLen
  | later {i optionLen size : Nat} (hsize : optionSize? m i = some size) (hle : size ≤ optionLen)
      (hlater : MeetsEmptyUnknown m (i + size) (optionLen - size)) :
      MeetsEmptyUnknown m i optionLen

variable {m : Memory} {i : Nat} {s : Parse} {outcome : Outcome}

theorem MeetsEmptyUnknown.pos {optionLen : Nat} (h : MeetsEmptyUnknown m i optionLen) :
    0 < optionLen := by
  induction h with
  | here hpos => exact hpos
  | later _ _ _ ih => exact ih.trans_le (Nat.sub_le _ _)

theorem EmptyUnknown.optionSize?_eq_none (h : EmptyUnknown m i) : optionSize? m i = none := by
  obtain ⟨hunknown, hzero⟩ := h
  simp only [TcpOption.isKindKnown, Bool.or_eq_false_iff, decide_eq_false_iff_not] at hunknown
  obtain ⟨⟨⟨⟨⟨⟨h0, h1⟩, h2⟩, h3⟩, h4⟩, h5⟩, h8⟩ := hunknown
  simp only [optionSize?, h0, h1, h2, h3, h4, h5, h8, if_false, hzero]
  rfl

/-- What is read for an option. -/
inductive OptionRead (m : Memory) (i : Nat) : Option (TcpOption × Nat) → Prop
  | empty (op : TcpOption) (hempty : EmptyUnknown m i) (hsize : op.getSerializedSize = 0)
      (hkind : op.getKind ≠ 0) : OptionRead m i (some (op, 0))
  | sized (op : TcpOption) (hpos : 0 < op.getSerializedSize) (hnonempty : ¬EmptyUnknown m i)
      (hsize : optionSize? m i = some op.getSerializedSize) (hkind : op.getKind ≠ 0) :
      OptionRead m i (some (op, op.getSerializedSize))
  | eol (hnonempty : ¬EmptyUnknown m i) (hsize : optionSize? m i = none) :
      OptionRead m i (some (.eol, 1))
  | malformed (op : TcpOption) (n : Nat) (hnonempty : ¬EmptyUnknown m i)
      (hsize : optionSize? m i = none) (hne : n ≠ op.getSerializedSize) :
      OptionRead m i (some (op, n))
  | aborted (hnonempty : ¬EmptyUnknown m i) (hsize : optionSize? m i = none) : OptionRead m i none

theorem length_readBlocks (m : Memory) (i n : Nat) : (TcpOption.readBlocks m i n).length = n := by
  induction n generalizing i with
  | zero => rfl
  | succ n ih => rw [TcpOption.readBlocks, List.length_cons, ih]

theorem sackCount_lt (size : Byte) : TcpOption.sackCount size < 32 := by
  have hsize : size.toNat < 256 := size.isLt
  rcases lt_or_ge size.toNat 2 with hlt | hge
  · have hsmall : size.toNat = 0 ∨ size.toNat = 1 := by omega
    rcases hsmall with h | h
    all_goals
      rw [TcpOption.sackCount, h]
      decide
  · rw [TcpOption.sackCount, Int.tdiv_eq_ediv_of_nonneg (by omega)]
    omega

theorem getSerializedSize_readSack (m : Memory) (i : Nat) (size : Byte) :
    (TcpOption.sack (TcpOption.readBlocks m i (TcpOption.sackCount size))).getSerializedSize =
      2 + TcpOption.sackCount size * 8 := by
  have := sackCount_lt size
  rw [TcpOption.getSerializedSize, length_readBlocks]
  omega

theorem not_emptyUnknown (h : TcpOption.isKindKnown (m i) = true) :
    ¬EmptyUnknown m i := fun hempty => Bool.noConfusion (h.symm.trans hempty.1)

theorem optionRead_fixed {op value : TcpOption} {size : Byte} (hkind : m i = op.getKind)
    (hknown : TcpOption.isKindKnown (m i) = true) (hop : 0 < op.getSerializedSize)
    (hval : 0 < value.getSerializedSize) (hother : value.getKind ≠ 0)
    (hsize : optionSize? m i = if m (i + 1) = size then some value.getSerializedSize else none) :
    OptionRead m i (some (op.deserializeFixed m i size value)) := by
  have hnonempty := not_emptyUnknown hknown
  rw [TcpOption.deserializeFixed, if_neg (not_not_intro hkind)]
  split
  · next hne =>
    rw [if_neg hne] at hsize
    exact .malformed op 0 hnonempty hsize hop.ne
  · next heq =>
    rw [if_pos (not_not.mp heq)] at hsize
    exact .sized value hval hnonempty hsize hother

theorem optionRead (m : Memory) (i : Nat) :
    OptionRead m i ((TcpOption.createOption (m i)).deserialize m i) := by
  by_cases h0 : m i = 0
  · have hread : (TcpOption.createOption (m i)).deserialize m i = some (.eol, 1) := by
      simp [TcpOption.createOption, TcpOption.deserialize, h0]
    rw [hread]
    exact .eol (not_emptyUnknown (by rw [h0]; rfl)) (by simp [optionSize?, h0])
  by_cases h1 : m i = 1
  · have hread : (TcpOption.createOption (m i)).deserialize m i = some (.nop, 1) := by
      simp [TcpOption.createOption, TcpOption.deserialize, h1]
    rw [hread]
    exact .sized .nop (by decide) (not_emptyUnknown (by rw [h1]; rfl))
      (by simp [optionSize?, h1, TcpOption.getSerializedSize]) (by decide)
  by_cases h2 : m i = 2
  · have hne := not_emptyUnknown (show TcpOption.isKindKnown (m i) = true by rw [h2]; rfl)
    by_cases hlen : m (i + 1) = 4
    · have hread : (TcpOption.createOption (m i)).deserialize m i =
          some (.mss (word 2 m (i + 2)), 4) := by
        simp [TcpOption.createOption, TcpOption.deserialize, h2, hlen]
      rw [hread]
      exact .sized (.mss _) (by simp [TcpOption.getSerializedSize]) hne
        (by simp [optionSize?, h2, hlen, TcpOption.getSerializedSize])
        (by simp [TcpOption.getKind])
    · have hlen' : ¬m (i + 1) = 4#8 := hlen
      have hread : (TcpOption.createOption (m i)).deserialize m i = none := by
        simp [TcpOption.createOption, TcpOption.deserialize, h2, hlen']
      rw [hread]
      exact .aborted hne (by simp [optionSize?, h2, hlen'])
  by_cases h3 : m i = 3
  · rw [show TcpOption.createOption (m i) = .winScale 0 by simp [TcpOption.createOption, h3]]
    exact optionRead_fixed h3 (by rw [h3]; rfl) (by decide) (by simp [TcpOption.getSerializedSize])
      (by simp [TcpOption.getKind]) (by simp [optionSize?, h3, TcpOption.getSerializedSize])
  by_cases h4 : m i = 4
  · rw [show TcpOption.createOption (m i) = .sackPermitted by simp [TcpOption.createOption, h4]]
    exact optionRead_fixed h4 (by rw [h4]; rfl) (by decide) (by decide) (by decide)
      (by simp [optionSize?, h4, TcpOption.getSerializedSize])
  by_cases h5 : m i = 5
  · have hread : (TcpOption.createOption (m i)).deserialize m i =
        some (.sack (TcpOption.readBlocks m (i + 2) (TcpOption.sackCount (m (i + 1)))),
          (TcpOption.sack (TcpOption.readBlocks m (i + 2)
            (TcpOption.sackCount (m (i + 1))))).getSerializedSize) := by
      simp [TcpOption.createOption, TcpOption.deserialize, h5]
    have hsize := getSerializedSize_readSack m (i + 2) (m (i + 1))
    rw [hread]
    exact .sized _ (hsize ▸ Nat.add_pos_left (by decide) _)
      (not_emptyUnknown (by rw [h5]; rfl)) (by rw [hsize]; simp [optionSize?, h5])
      (by simp [TcpOption.getKind])
  by_cases h8 : m i = 8
  · rw [show TcpOption.createOption (m i) = .ts 0 0 by simp [TcpOption.createOption, h8]]
    exact optionRead_fixed h8 (by rw [h8]; rfl) (by decide) (by simp [TcpOption.getSerializedSize])
      (by simp [TcpOption.getKind]) (by simp [optionSize?, h8, TcpOption.getSerializedSize])
  have hcreate : TcpOption.createOption (m i) = .unknown 0xff 0 [] := by
    simp only [TcpOption.createOption, h0, h1, h2, h3, h4, h5, h8, if_false]
  have hunknown : TcpOption.isKindKnown (m i) = false := by
    simp only [TcpOption.isKindKnown, h0, h1, h2, h3, h4, h5, h8, decide_false, Bool.or_false]
  have hlead : optionSize? m i =
      if m (i + 1) < 2 ∨ 40 < m (i + 1) then none else some (m (i + 1)).toNat := by
    simp only [optionSize?, h0, h1, h2, h3, h4, h5, h8, if_false]
  rw [hcreate, TcpOption.deserialize]
  split
  · next hbad =>
    rw [if_pos hbad] at hlead
    by_cases hzero : m (i + 1) = 0
    · exact .empty _ ⟨hunknown, hzero⟩ (by rw [hzero]; rfl) h0
    · refine .malformed _ 0 (fun h => hzero h.2) hlead fun h => hzero ?_
      exact BitVec.eq_of_toNat_eq h.symm
  · next hgood =>
    rw [if_neg hgood] at hlead
    have hpos : 0 < (m (i + 1)).toNat := by
      refine pos_of_ne_zero fun h => hgood (.inl ?_)
      rw [show m (i + 1) = 0 from BitVec.eq_of_toNat_eq h]
      decide
    exact .sized (.unknown (m i) (m (i + 1)) _) hpos
      (fun h => hpos.ne' (congrArg BitVec.toNat h.2)) hlead h0

namespace TcpHeader

/-- What a round does with bytes left. -/
inductive RoundDoes (m : Memory) (s : Parse) : Round → Prop
  | stays (op : TcpOption) (hempty : EmptyUnknown m s.i) : RoundDoes m s (.goesOn (s.push op 0))
  | moves (op : TcpOption) (n : Nat) (hnonempty : ¬EmptyUnknown m s.i) (hpos : 0 < n)
      (hsize : optionSize? m s.i = some n) (hle : n ≤ s.optionLen) :
      RoundDoes m s (.goesOn (s.push op n))
  | ends (s' : Parse) (hnonempty : ¬EmptyUnknown m s.i) (hsize : optionSize? m s.i = none)
      (hend : s'.optionLen = 0) : RoundDoes m s (.goesOn s')
  | breaks (hnonempty : ¬EmptyUnknown m s.i)
      (hsize : ∀ n, optionSize? m s.i = some n → s.optionLen < n) : RoundDoes m s .breaks
  | aborts (hnonempty : ¬EmptyUnknown m s.i) (hsize : optionSize? m s.i = none) :
      RoundDoes m s .aborts

theorem roundDoes (hpos : 0 < s.optionLen) : RoundDoes m s (round m s) := by
  have hread := optionRead m s.i
  unfold round
  cases h : (TcpOption.createOption (m s.i)).deserialize m s.i with
  | none =>
    rw [h] at hread
    cases hread with
    | aborted hnonempty hsize => exact .aborts hnonempty hsize
  | some result =>
    rw [h] at hread
    cases hread with
    | empty op hempty hsize hkind =>
      simp only [hsize, ne_eq, not_true_eq_false, if_false, ge_iff_le, zero_le, if_true, hkind]
      exact .stays op hempty
    | sized op hop hnonempty hsize hkind =>
      simp only [ne_eq, not_true_eq_false, if_false, ge_iff_le, hkind]
      split
      · next hle => exact .moves op _ hnonempty hop hsize hle
      · next hgt =>
        refine .breaks hnonempty fun n hn => ?_
        rw [hsize] at hn
        exact Option.some.inj hn ▸ not_le.mp hgt
    | eol hnonempty hsize =>
      have hone : s.optionLen ≥ 1 := hpos
      simp only [TcpOption.getSerializedSize, TcpOption.getKind, ne_eq, not_true_eq_false,
        if_false, hone, if_true]
      exact .ends _ hnonempty hsize rfl
    | malformed op n hnonempty hsize hne =>
      simp only [ne_eq, hne, not_false_eq_true, if_true]
      refine .breaks hnonempty fun n hn => ?_
      rw [hsize] at hn
      cases hn

/-- Without an empty option of an unknown kind, every round has less bytes left. -/
theorem parseOptions_isSome (n : Nat) (hn : s.optionLen ≤ n)
    (h : ¬MeetsEmptyUnknown m s.i s.optionLen) : (parseOptions m (n + 1) s).isSome := by
  induction n generalizing s with
  | zero =>
    rw [parseOptions, if_pos (Nat.le_zero.mp hn)]
    rfl
  | succ n ih =>
    rw [parseOptions]
    split
    · rfl
    · next hne =>
      have hpos := pos_of_ne_zero hne
      have hround := roundDoes hpos (m := m)
      generalize round m s = result at hround
      cases hround with
      | stays op hempty => exact absurd (.here hpos hempty) h
      | moves op size hnonempty hsizepos hsize hle =>
        refine ih ?_ fun hlater => h (.later hsize hle hlater)
        show s.optionLen - size ≤ n
        omega
      | ends s' hnonempty hsize hend =>
        show (parseOptions m (n + 1) s').isSome = true
        rw [parseOptions, if_pos hend]
        rfl
      | breaks => rfl
      | aborts => rfl

/-- Once there is an empty option of an unknown kind, the rounds are never enough. -/
theorem parseOptions_eq_none {optionLen : Nat} (h : MeetsEmptyUnknown m i optionLen) (n : Nat)
    (hi : s.i = i) (hlen : s.optionLen = optionLen) : parseOptions m n s = none := by
  induction h generalizing n s with
  | @here i optionLen hpos hempty =>
    subst i optionLen
    induction n generalizing s with
    | zero => rfl
    | succ n ih =>
      rw [parseOptions, if_neg hpos.ne']
      have hround := roundDoes hpos (m := m)
      generalize round m s = result at hround
      cases hround with
      | stays op _ => exact ih hempty hpos
      | moves _ _ hne | ends _ hne | breaks hne | aborts hne =>
        exact absurd hempty hne
  | @later i optionLen size hsize hle hlater ih =>
    subst i optionLen
    cases n with
    | zero => rfl
    | succ n =>
      have hpos : 0 < s.optionLen := (MeetsEmptyUnknown.later hsize hle hlater).pos
      rw [parseOptions, if_neg hpos.ne']
      have hround := roundDoes hpos (m := m)
      generalize round m s = result at hround
      cases hround with
      | stays op hempty => cases hsize.symm.trans hempty.optionSize?_eq_none
      | moves op n' hne _ hsize' hle' =>
        obtain rfl := Option.some.inj (hsize.symm.trans hsize')
        exact ih n rfl rfl
      | ends _ _ hnone | aborts _ hnone => cases hsize.symm.trans hnone
      | breaks _ hlt => exact absurd hle (not_le.mpr (hlt size hsize))

theorem parseOptions_succ {n : Nat} (h : parseOptions m n s = some outcome) :
    parseOptions m (n + 1) s = some outcome := by
  induction n generalizing s with
  | zero => cases h
  | succ n ih =>
    rw [parseOptions] at h ⊢
    split at h
    · next hend => rw [if_pos hend, h]
    · next hne =>
      rw [if_neg hne]
      generalize round m s = result at h ⊢
      cases result with
      | aborts => exact h
      | breaks => exact h
      | goesOn s' => exact ih h

theorem parseOptions_mono {n k : Nat} (h : parseOptions m n s = some outcome) :
    parseOptions m (n + k) s = some outcome := by
  induction k with
  | zero => exact h
  | succ k ih => exact parseOptions_succ ih

theorem parseOptions_unique {n k : Nat} {outcome' : Outcome} (h : parseOptions m n s = some outcome)
    (h' : parseOptions m k s = some outcome') : outcome = outcome' := by
  have hmore := parseOptions_mono h (k := k)
  rw [add_comm, parseOptions_mono h' (k := n)] at hmore
  exact (Option.some.inj hmore).symm

theorem deserialize_unique {n k : Nat} {outcome' : Outcome} (h : deserialize m n = some outcome)
    (h' : deserialize m k = some outcome') : outcome = outcome' := by
  simp only [deserialize] at h h'
  split at h
  · next hlong =>
    rw [if_pos hlong] at h'
    exact Option.some.inj (h.symm.trans h')
  · next hlen =>
    rw [if_neg hlen] at h'
    exact parseOptions_unique h h'

/-- `Deserialize` ends. -/
def Ends (m : Memory) : Prop := ∃ rounds, (deserialize m rounds).isSome

/-- The options of the header have an empty option of an unknown kind. -/
def HasEmptyUnknown (m : Memory) : Prop :=
  optionLen (readFields m).length ≤ maxOptionsLen ∧
    MeetsEmptyUnknown m 20 (optionLen (readFields m).length)

theorem ends_iff (m : Memory) : Ends m ↔ ¬HasEmptyUnknown m := by
  constructor
  · rintro ⟨rounds, h⟩ ⟨hle, hmeets⟩
    rw [deserialize, if_neg (not_lt.mpr hle), parseOptions_eq_none hmeets rounds rfl rfl] at h
    cases h
  · intro h
    by_cases hle : optionLen (readFields m).length ≤ maxOptionsLen
    · refine ⟨optionLen (readFields m).length + 1, ?_⟩
      rw [deserialize, if_neg (not_lt.mpr hle)]
      exact parseOptions_isSome _ le_rfl fun hmeets => h ⟨hle, hmeets⟩
    · refine ⟨0, ?_⟩
      rw [deserialize, if_pos (not_le.mp hle)]
      rfl

end TcpHeader

end MoeJit.Tcp
