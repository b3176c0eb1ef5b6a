import MoeJit.Lib.Bytes
import MoeJit.Lte.SequenceNumber10

/-!
# The header of an acknowledged-mode PDU

A data PDU has a fixed part of four bytes and then, for every segment of the data field but the
last, an extension bit and a length: three bytes for two of them. A STATUS PDU acknowledges, with a
list of the sequence numbers that are missing.

The header counts its own length as it is filled.
-/

namespace MoeJit.Lte

open Bytes (Byte)

/-- What is given to the MAC, with its header. -/
abbrev Pdu := List Byte

/-- `Packet::AddHeader`, of what a header writes into the room that it asks for. -/
def addHeader (written : Option (List Byte)) (serializedSize : Nat) (packet : List Byte) :
    Option Pdu :=
  written.bind fun written =>
    if written.length = serializedSize then some (written ++ packet) else none

structure LteRlcAmHeader where
  /-- Of 16 bits. -/
  headerLength : Nat
  dataControlBit : Nat
  resegmentationFlag : Nat
  pollingBit : Nat
  framingInfo : Nat
  sequenceNumber : SequenceNumber10
  lastSegmentFlag : Nat
  segmentOffset : Nat
  extensionBits : List Nat
  lengthIndicators : List Nat
  controlPduType : Nat
  ackSn : SequenceNumber10
  nackSnList : List Nat
  deriving DecidableEq

def dataPdu : Nat := 1

def controlPdu : Nat := 0

def statusPdu : Nat := 0

def dataFieldFollows : Nat := 0

def eLiFieldsFollows : Nat := 1

namespace LteRlcAmHeader

/-- The constructor. The flag of the last segment has no initial value. -/
def initial : LteRlcAmHeader where
  headerLength := 0
  dataControlBit := 0xff
  resegmentationFlag := 0xff
  pollingBit := 0xff
  framingInfo := 0xff
  sequenceNumber := .ofValue 0xfffa
  lastSegmentFlag := 0
  segmentOffset := 0xffff
  extensionBits := []
  lengthIndicators := []
  controlPduType := 0xff
  ackSn := .ofValue 0xffff
  nackSnList := []

def setDataPdu (h : LteRlcAmHeader) : LteRlcAmHeader :=
  { h with headerLength := 4, dataControlBit := dataPdu }

def setControlPdu (h : LteRlcAmHeader) (controlPduType : Nat) : LteRlcAmHeader :=
  { h with headerLength := 2, dataControlBit := controlPdu, controlPduType }

def setFramingInfo (h : LteRlcAmHeader) (framingInfo : Nat) : LteRlcAmHeader :=
  { h with framingInfo := framingInfo &&& 0x03 }

def setPollingBit (h : LteRlcAmHeader) (pollingBit : Nat) : LteRlcAmHeader :=
  { h with pollingBit := pollingBit &&& 0x01 }

def pushExtensionBit (h : LteRlcAmHeader) (extensionBit : Nat) : LteRlcAmHeader :=
  let extensionBits := h.extensionBits ++ [extensionBit]
  { h with
    extensionBits
    headerLength :=
      if 1 < extensionBits.length then
        if extensionBits.length % 2 = 1 then (h.headerLength + 1) % 65536
        else (h.headerLength + 2) % 65536
      else h.headerLength }

def pushLengthIndicator (h : LteRlcAmHeader) (lengthIndicator : Nat) : LteRlcAmHeader :=
  { h with lengthIndicators := h.lengthIndicators ++ [lengthIndicator] }

/-- The room is for `uint16_t` bytes. -/
def oneMoreNackWouldFitIn (h : LteRlcAmHeader) (bytes : Nat) : Bool :=
  if h.nackSnList.length % 2 = 0 then h.headerLength < bytes
  else (h.headerLength : Int) < (bytes : Int) - 1

def pushNack (h : LteRlcAmHeader) (nack : Nat) : LteRlcAmHeader :=
  let nackSnList := h.nackSnList ++ [nack]
  { h with
    nackSnList
    headerLength :=
      if nackSnList.length % 2 = 0 then (h.headerLength + 1) % 65536
      else (h.headerLength + 2) % 65536 }

def isNackPresent (h : LteRlcAmHeader) (nack : SequenceNumber10) : Bool :=
  h.nackSnList.any (· = nack.value)

/-! ## 1. Writing -/

def byte (x : Nat) : Byte := BitVec.ofNat 8 x

/-- The extension bits but the first, with the lengths, two at a time. -/
def serializeLis : List Nat → List Nat → List Byte
  | oddE :: evenE :: es, oddLi :: evenLi :: lis =>
    byte (((oddE <<< 7) &&& 0x80) ||| ((oddLi >>> 4) &&& 0x7f)) ::
      byte (((oddLi <<< 4) &&& 0xf0) ||| ((evenE <<< 3) &&& 0x08) ||| ((evenLi >>> 8) &&& 0x07)) ::
      byte (evenLi &&& 0xff) :: serializeLis es lis
  | oddE :: _, oddLi :: _ =>
    [byte (((oddE <<< 7) &&& 0x80) ||| ((oddLi >>> 4) &&& 0x7f)), byte ((oddLi <<< 4) &&& 0xf0)]
  | _, _ => []

/-- The first bit of the list has been written. -/
def serializeNacks : List Nat → List Byte
  | [] => []
  | [oddNack] => [byte ((oddNack >>> 1) &&& 0xff), byte ((oddNack <<< 7) &&& 0x80)]
  | [oddNack, evenNack] =>
    [byte ((oddNack >>> 1) &&& 0xff),
      byte (((oddNack <<< 7) &&& 0x80) ||| 0x40 ||| ((evenNack >>> 5) &&& 0x1f)),
      byte ((evenNack <<< 3) &&& 0xf8)]
  | oddNack :: evenNack :: nextNack :: nacks =>
    byte ((oddNack >>> 1) &&& 0xff) ::
      byte (((oddNack <<< 7) &&& 0x80) ||| 0x40 ||| ((evenNack >>> 5) &&& 0x1f)) ::
      byte (((evenNack <<< 3) &&& 0xf8) ||| 0x04 ||| ((nextNack >>> 9) &&& 0x01)) ::
      serializeNacks (nextNack :: nacks)

/-- There is nothing to write for a data PDU without an extension bit. -/
def serialize (h : LteRlcAmHeader) : Option (List Byte) :=
  if h.dataControlBit = dataPdu then
    match h.extensionBits with
    | [] => none
    | e :: es => some (
      byte (0x80 ||| ((h.resegmentationFlag <<< 6) &&& 0x40) ||| ((h.pollingBit <<< 5) &&& 0x20) |||
        ((h.framingInfo <<< 3) &&& 0x18) ||| ((e <<< 2) &&& 0x04) |||
        ((h.sequenceNumber.value >>> 8) &&& 0x03)) ::
      byte (h.sequenceNumber.value &&& 0xff) ::
      byte (((h.lastSegmentFlag <<< 7) &&& 0x80) ||| ((h.segmentOffset >>> 8) &&& 0x7f)) ::
      byte (h.segmentOffset &&& 0xff) :: serializeLis es h.lengthIndicators)
  else
    let first := byte (((h.controlPduType <<< 4) &&& 0x70) ||| ((h.ackSn.value >>> 6) &&& 0x0f))
    match h.nackSnList with
    | [] => some [first, byte ((h.ackSn.value <<< 2) &&& 0xfc)]
    | nack :: nacks => some (first ::
      byte (((h.ackSn.value <<< 2) &&& 0xfc) ||| 0x02 ||| ((nack >>> 9) &&& 0x01)) ::
      serializeNacks (nack :: nacks))

def addTo (h : LteRlcAmHeader) (packet : List Byte) : Option Pdu :=
  addHeader h.serialize h.headerLength packet

/-! ## 2. Reading -/

/-- The extension bits and the lengths after the first extension bit, with the bytes they take. -/
def readLis : List Byte → Option (List Nat × List Nat × Nat)
  | b1 :: b2 :: rest =>
    let oddE := (b1.toNat &&& 0x80) >>> 7
    let oddLi := ((b1.toNat &&& 0x7f) <<< 4) ||| ((b2.toNat &&& 0xf0) >>> 4)
    if oddE = eLiFieldsFollows then
      match rest with
      | [] => none
      | b3 :: rest =>
        let evenE := (b2.toNat &&& 0x08) >>> 3
        let evenLi := ((b2.toNat &&& 0x07) <<< 8) ||| b3.toNat
        if evenE = eLiFieldsFollows then
          (readLis rest).map fun (es, lis, length) =>
            (oddE :: evenE :: es, oddLi :: evenLi :: lis, length + 3)
        else some ([oddE, evenE], [oddLi, evenLi], 3)
    else some ([oddE], [oddLi], 2)
  | _ => none

/-- The NACKs after the first, whose last byte is given, with the bytes they take. -/
def readNacks (last : Byte) : List Byte → Option (List Nat × Nat)
  | [] => if (last.toNat &&& 0x40) >>> 6 = 1 then none else some ([], 0)
  | next :: rest =>
    if (last.toNat &&& 0x40) >>> 6 = 1 then
      let evenNack := ((last.toNat &&& 0x1f) <<< 5) ||| ((next.toNat &&& 0xf8) >>> 3)
      if (next.toNat &&& 0x04) >>> 2 = 1 then
        match rest with
        | middle :: final :: rest =>
          let oddNack := ((next.toNat &&& 0x01) <<< 9) ||| (middle.toNat <<< 1) |||
            ((final.toNat &&& 0x80) >>> 7)
          (readNacks final rest).map fun (nacks, length) =>
            (evenNack :: oddNack :: nacks, length + 3)
        | _ => none
      else some ([evenNack], 1)
    else some ([], 0)

/-- There is none where the packet ends inside of its header. -/
def deserialize : Pdu → Option LteRlcAmHeader
  | b1 :: b2 :: rest =>
    if (b1.toNat &&& 0x80) >>> 7 = dataPdu then
      match rest with
      | b3 :: b4 :: rest =>
        let extensionBit := (b1.toNat &&& 0x04) >>> 2
        let header := { initial with
          headerLength := 4
          dataControlBit := dataPdu
          resegmentationFlag := (b1.toNat &&& 0x40) >>> 6
          pollingBit := (b1.toNat &&& 0x20) >>> 5
          framingInfo := (b1.toNat &&& 0x18) >>> 3
          sequenceNumber := .ofValue (((b1.toNat &&& 0x03) <<< 8) ||| b2.toNat)
          lastSegmentFlag := (b3.toNat &&& 0x80) >>> 7
          -- the source does not shift the first part
          segmentOffset := (b3.toNat &&& 0x7f) ||| b4.toNat
          extensionBits := [extensionBit] }
        if extensionBit = dataFieldFollows then some header
        else (readLis rest).map fun (es, lis, length) => { header with
          headerLength := (4 + length) % 65536
          extensionBits := extensionBit :: es
          lengthIndicators := lis }
      | _ => none
    else
      let header := { initial with
        headerLength := 2
        dataControlBit := controlPdu
        controlPduType := (b1.toNat &&& 0x70) >>> 4
        ackSn := .ofValue (((b1.toNat &&& 0x0f) <<< 6) ||| ((b2.toNat &&& 0xfc) >>> 2)) }
      if (b2.toNat &&& 0x02) >>> 1 = 1 then
        match rest with
        | b3 :: b4 :: rest =>
          let nack := ((b2.toNat &&& 0x01) <<< 9) ||| (b3.toNat <<< 1) |||
            ((b4.toNat &&& 0x80) >>> 7)
          (readNacks b4 rest).map fun (nacks, length) => { header with
            headerLength := (4 + length) % 65536
            nackSnList := nack :: nacks }
        | _ => none
      else some header
  | _ => none

/-- `Packet::RemoveHeader`. -/
def removeHeader (packet : Pdu) : Option (LteRlcAmHeader × List Byte) :=
  (deserialize packet).map fun h => (h, packet.drop h.headerLength)

end LteRlcAmHeader

end MoeJit.Lte
