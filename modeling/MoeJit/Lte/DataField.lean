import MoeJit.Lte.LteRlcAmHeader

/-!
# The data field of a PDU

SDUs and segments of SDUs are put into a PDU as long as the transmit opportunity has room. For every
one that another follows, an extension bit and a length are pushed into the header, and the room for
them is taken from the opportunity: two bytes and one byte in turn.
-/

namespace MoeJit.Lte

inductive SduStatus
  | fullSdu
  | firstSegment
  | middleSegment
  | lastSegment
  deriving DecidableEq

/-- A packet with its `LteRlcSduStatusTag`. -/
structure Sdu where
  bytes : List Bytes.Byte
  status : SduStatus
  deriving DecidableEq

def sizeOf (packet : List Bytes.Byte) : BitVec 32 := BitVec.ofNat 32 packet.length

/-- The segment that is taken, and what is given back to the buffer. -/
def Sdu.segment (first : Sdu) (currSegmentSize : Nat) : Sdu × Option Sdu :=
  let newSegment := first.bytes.take currSegmentSize
  let remaining := first.bytes.drop currSegmentSize
  let (newStatus, oldStatus) : SduStatus × SduStatus :=
    match first.status with
    | .fullSdu => (.firstSegment, .lastSegment)
    | .lastSegment => (.middleSegment, .lastSegment)
    | status => (status, status)
  if 0 < remaining.length then (⟨newSegment, newStatus⟩, some ⟨remaining, oldStatus⟩)
  else
    match newStatus with
    | .firstSegment => (⟨newSegment, .fullSdu⟩, none)
    | .middleSegment => (⟨newSegment, .lastSegment⟩, none)
    | status => (⟨newSegment, status⟩, none)

/-- The segments with what is pushed into the header, and the buffer that is left. -/
structure DataField where
  segments : List Sdu
  extensionBits : List Nat
  lengthIndicators : List Nat
  buffer : List Sdu
  bufferSize : BitVec 32

/-- The loop that builds the data field, which is the same in both modes. -/
def buildDataField (nextSegmentSize nextSegmentId : Nat) (firstSegment : Sdu) (buffer : List Sdu)
    (bufferSize : BitVec 32) : DataField :=
  if firstSegment.bytes.length = 0 ∨ nextSegmentSize = 0 then ⟨[], [], [], buffer, bufferSize⟩
  else if nextSegmentSize < firstSegment.bytes.length ∨ 2047 < firstSegment.bytes.length then
    match firstSegment.segment (min firstSegment.bytes.length nextSegmentSize) with
    | (newSegment, some remaining) =>
      ⟨[newSegment], [dataFieldFollows], [], remaining :: buffer,
        bufferSize + sizeOf remaining.bytes⟩
    | (newSegment, none) => ⟨[newSegment], [dataFieldFollows], [], buffer, bufferSize⟩
  else
    match buffer with
    | [] => ⟨[firstSegment], [dataFieldFollows], [], [], bufferSize⟩
    | next :: rest =>
      if nextSegmentSize - firstSegment.bytes.length ≤ 2 then
        ⟨[firstSegment], [dataFieldFollows], [], next :: rest, bufferSize⟩
      else
        let field := buildDataField
          (nextSegmentSize - ((if nextSegmentId % 2 = 1 then 2 else 1) + firstSegment.bytes.length))
          (nextSegmentId + 1) next rest (bufferSize - sizeOf next.bytes)
        { field with
          segments := firstSegment :: field.segments
          extensionBits := eLiFieldsFollows :: field.extensionBits
          lengthIndicators := firstSegment.bytes.length :: field.lengthIndicators }

/-- The bytes of the segments. -/
def DataField.data (field : DataField) : List Bytes.Byte := field.segments.flatMap Sdu.bytes

/-- There is none without a segment. -/
def DataField.framingInfo (field : DataField) : Option Nat :=
  match field.segments.head?, field.segments.getLast? with
  | some first, some last => some (
    (if first.status = .fullSdu ∨ first.status = .firstSegment then 0 else 2) |||
      (if last.status = .fullSdu ∨ last.status = .lastSegment then 0 else 1))
  | _, _ => none

end MoeJit.Lte
