import MoeJit.Internet.SequenceNumber
import MoeJit.Lib.Words
import Mathlib.Algebra.Order.Group.Int

/-!
# The receive buffer

`TcpRxBuffer` holds the segments that arrived in the order of their sequence numbers: those below
`nextRxSeq` wait for the application, the others for what is missing in front of them. The list of
SACK blocks says which ones these are.

The buffer is that of the source at `SequenceNumber32`. Over the integers it is the same buffer on a
line that does not wrap (`Internet/TcpRxPositions.lean`).
-/

namespace MoeJit.Tcp

open Words (u32 sub32)

/-! ## 1. Sequence numbers -/

/-- What the buffer does with sequence numbers. A difference is taken as unsigned. -/
class SequenceNumber (σ : Type) where
  gt : σ → σ → Bool
  add : σ → Nat → σ
  sub : σ → σ → Nat

namespace SequenceNumber

variable {σ : Type} [DecidableEq σ] [SequenceNumber σ]

def ge (a b : σ) : Bool := gt a b || a = b

def le (a b : σ) : Bool := !gt a b

def lt (a b : σ) : Bool := !gt a b && a ≠ b

end SequenceNumber

instance : SequenceNumber SequenceNumber32 where
  gt := SequenceNumber32.gt
  add a n := a + BitVec.ofNat 32 n
  sub a b := (a - b).toNat

instance : SequenceNumber ℤ where
  gt a b := b < a
  add a n := a + n
  sub a b := (a - b).toNat

open SequenceNumber

variable {σ β : Type} [DecidableEq σ] [SequenceNumber σ]

/-! ## 2. The SACK list -/

/-- The first block that touches `begin`, merged with it, and the blocks but for that one. -/
def mergeFirst (begin : σ × σ) : List (σ × σ) → Option ((σ × σ) × List (σ × σ))
  | [] => none
  | current :: rest =>
    if begin.1 = current.2 then some ((current.1, begin.2), rest)
    else if begin.2 = current.1 then some ((begin.1, current.2), rest)
    else (mergeFirst begin rest).map fun found => (found.1, current :: found.2)

/-- The loop of `UpdateSackList`, which starts again after a merge; each takes one block. -/
def mergeBlocks : Nat → σ × σ → List (σ × σ) → List (σ × σ)
  | 0, begin, blocks => begin :: blocks
  | fuel + 1, begin, blocks =>
    match mergeFirst begin blocks with
    | none => begin :: blocks
    | some (merged, rest) => mergeBlocks fuel merged rest

def updateSackList (head tail : σ) (sackList : List (σ × σ)) : List (σ × σ) :=
  let sackList := mergeBlocks sackList.length (head, tail) sackList
  if sackList.length > 4 then sackList.dropLast else sackList

def clearSackList (seq : σ) (sackList : List (σ × σ)) : List (σ × σ) :=
  sackList.filter fun block => !le block.2 seq

/-! ## 3. The buffer -/

/-- A packet with the sequence number of its header. -/
structure Segment (σ β : Type) where
  seq : σ
  payload : List β
  bounded : payload.length < 2 ^ 32

/-- The number after the last byte. -/
def Segment.tailSeq (segment : Segment σ β) : σ := add segment.seq segment.payload.length

/-- `size`, `maxBuffer` and `availBytes` are unsigned numbers of 32 bits. -/
structure TcpRxBuffer (σ β : Type) where
  nextRxSeq : σ
  finSeq : σ
  gotFin : Bool := false
  maxBuffer : Nat
  size : Nat := 0
  availBytes : Nat := 0
  data : List (σ × List β) := []
  sackList : List (σ × σ) := []

/-- `m_data[seq] = p`. -/
def insertPacket (seq : σ) (p : List β) : List (σ × List β) → List (σ × List β)
  | [] => [(seq, p)]
  | packet :: rest =>
    if lt seq packet.1 then (seq, p) :: packet :: rest
    else if lt packet.1 seq then packet :: insertPacket seq p rest
    else (packet.1, p) :: rest

/-- What is left of a segment, and the buffer that it is put into. -/
structure Trimmed (σ β : Type) where
  headSeq : σ
  tailSeq : σ
  size : Nat
  data : List (σ × List β)

/-- The loop that removes overlapped bytes from a packet. -/
def removeOverlap (headSeq tailSeq : σ) (size : Nat) : List (σ × List β) → Trimmed σ β
  | [] => ⟨headSeq, tailSeq, size, []⟩
  | packet :: rest =>
    if le packet.1 tailSeq then
      let lastByteSeq := add packet.1 packet.2.length
      if gt lastByteSeq headSeq then
        if gt packet.1 headSeq && lt lastByteSeq tailSeq then
          removeOverlap headSeq tailSeq (sub32 size packet.2.length) rest
        else
          let headSeq' := if le packet.1 headSeq then lastByteSeq else headSeq
          let tailSeq' := if ge lastByteSeq tailSeq then packet.1 else tailSeq
          let trimmed := removeOverlap headSeq' tailSeq' size rest
          { trimmed with data := packet :: trimmed.data }
      else
        let trimmed := removeOverlap headSeq tailSeq size rest
        { trimmed with data := packet :: trimmed.data }
    else ⟨headSeq, tailSeq, size, packet :: rest⟩

/-- `nextRxSeq`, `availBytes` and `sackList` after the loop of `Add` that moves on. -/
def advance (nextRxSeq : σ) (availBytes : Nat) (sackList : List (σ × σ)) :
    List (σ × List β) → σ × Nat × List (σ × σ)
  | [] => (nextRxSeq, availBytes, sackList)
  | packet :: rest =>
    if lt packet.1 nextRxSeq then advance nextRxSeq availBytes sackList rest
    else if gt packet.1 nextRxSeq then (nextRxSeq, availBytes, sackList)
    else
      let nextRxSeq := add packet.1 packet.2.length
      advance nextRxSeq (u32 (availBytes + packet.2.length)) (clearSackList nextRxSeq sackList) rest

/-- The loop of `Extract`: the bytes that are taken, and what is left. -/
def takeFront (extractSize : Nat) : List (σ × List β) → List β × List (σ × List β)
  | [] => ([], [])
  | packet :: rest =>
    if extractSize = 0 then ([], packet :: rest)
    else if packet.2.length ≤ extractSize then
      let (outPkt, data) := takeFront (extractSize - packet.2.length) rest
      (packet.2 ++ outPkt, data)
    else
      let data := insertPacket (add packet.1 extractSize) (packet.2.drop extractSize) (packet :: rest)
      (packet.2.take extractSize, data.filter fun other => other.1 ≠ packet.1)

namespace TcpRxBuffer

variable (st : TcpRxBuffer σ β)

def maxRxSequence : σ :=
  if st.gotFin then st.finSeq
  else
    match st.data with
    | [] => add st.nextRxSeq st.maxBuffer
    | packet :: _ =>
      if gt st.nextRxSeq packet.1 then add packet.1 st.maxBuffer
      else add st.nextRxSeq st.maxBuffer

/-- The first part of `Add`, which trims a packet to the window. -/
def trimToWindow (headSeq tailSeq : σ) : σ × σ :=
  let headSeq := if lt headSeq st.nextRxSeq then st.nextRxSeq else headSeq
  match st.data with
  | [] => (headSeq, tailSeq)
  | packet :: _ =>
    let maxSeq := add packet.1 st.maxBuffer
    let tailSeq := if lt maxSeq tailSeq then maxSeq else tailSeq
    (if lt tailSeq headSeq then tailSeq else headSeq, tailSeq)

/-- A packet without the bytes that are there. -/
def trimmed (headSeq tailSeq : σ) : Trimmed σ β := removeOverlap headSeq tailSeq st.size st.data

/-- The rest of `Add`, from the loop that removes overlapped bytes on. -/
def store (segment : Segment σ β) (headSeq tailSeq : σ) : TcpRxBuffer σ β × Bool :=
  let trimmed := st.trimmed headSeq tailSeq
  let st := { st with size := trimmed.size, data := trimmed.data }
  if ge trimmed.headSeq trimmed.tailSeq then (st, false)
  else
    let start := sub trimmed.headSeq segment.seq
    let length := sub trimmed.tailSeq trimmed.headSeq
    let p := (segment.payload.drop start).take length
    let data := insertPacket trimmed.headSeq p trimmed.data
    let sackList :=
      if gt trimmed.headSeq st.nextRxSeq then
        updateSackList trimmed.headSeq trimmed.tailSeq st.sackList
      else st.sackList
    let (nextRxSeq, availBytes, sackList) := advance st.nextRxSeq st.availBytes sackList data
    ({ st with
      size := u32 (st.size + p.length)
      data := data
      sackList := sackList
      availBytes := availBytes
      nextRxSeq := if st.gotFin && nextRxSeq = st.finSeq then add nextRxSeq 1 else nextRxSeq },
      true)

def addSegment (segment : Segment σ β) : TcpRxBuffer σ β × Bool :=
  let (headSeq, tailSeq) := st.trimToWindow segment.seq segment.tailSeq
  st.store segment headSeq tailSeq

def extract (maxSize : Nat) : TcpRxBuffer σ β × Option (List β) :=
  let extractSize := min maxSize st.availBytes
  if extractSize = 0 then (st, none)
  else
    let (outPkt, data) := takeFront extractSize st.data
    ({ st with
      data := data
      size := sub32 st.size outPkt.length
      availBytes := sub32 st.availBytes outPkt.length },
      if outPkt.length = 0 then none else some outPkt)

/-- `TcpSocketBase::OutOfRange`, in the states in which data arrives. -/
def outOfRange (head tail : σ) : Bool :=
  lt tail st.nextRxSeq || le st.maxRxSequence head

end TcpRxBuffer

/-! ## 4. Runs -/

/-- The buffers that reads and segments lead to from an empty one, each segment as `arrives` allows
it. -/
inductive Reached (arrives : TcpRxBuffer σ β → Segment σ β → Prop) (maxBuffer : Nat) :
    TcpRxBuffer σ β → Prop
  | start (nextRxSeq finSeq : σ) :
      Reached arrives maxBuffer
        { nextRxSeq := nextRxSeq, finSeq := finSeq, maxBuffer := maxBuffer }
  | add {st : TcpRxBuffer σ β} (segment : Segment σ β) (hst : Reached arrives maxBuffer st)
      (harrives : arrives st segment) : Reached arrives maxBuffer (st.addSegment segment).1
  | extract {st : TcpRxBuffer σ β} (maxSize : Nat) (hst : Reached arrives maxBuffer st) :
      Reached arrives maxBuffer (st.extract maxSize).1

end MoeJit.Tcp
