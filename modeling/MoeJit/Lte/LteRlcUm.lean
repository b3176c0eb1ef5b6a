import MoeJit.Lte.DataField

/-!
# The sender of an unacknowledged-mode bearer

A PDU is built as in the acknowledged mode. Its header has a fixed part of two bytes, and no PDU is
kept.
-/

namespace MoeJit.Lte

open Bytes (Byte)
open LteRlcAmHeader (byte serializeLis)

structure LteRlcHeader where
  /-- Of 16 bits. -/
  headerLength : Nat
  framingInfo : Nat
  sequenceNumber : SequenceNumber10
  extensionBits : List Nat
  lengthIndicators : List Nat
  deriving DecidableEq

namespace LteRlcHeader

/-- The constructor. -/
def initial : LteRlcHeader where
  headerLength := 0
  framingInfo := 0xff
  sequenceNumber := .ofValue 0xfffa
  extensionBits := []
  lengthIndicators := []

def setFramingInfo (h : LteRlcHeader) (framingInfo : Nat) : LteRlcHeader :=
  { h with framingInfo := framingInfo &&& 0x03 }

def pushExtensionBit (h : LteRlcHeader) (extensionBit : Nat) : LteRlcHeader :=
  let extensionBits := h.extensionBits ++ [extensionBit]
  { h with
    extensionBits
    headerLength :=
      if extensionBits.length = 1 then 2
      else if extensionBits.length % 2 = 1 then (h.headerLength + 1) % 65536
      else (h.headerLength + 2) % 65536 }

def pushLengthIndicator (h : LteRlcHeader) (lengthIndicator : Nat) : LteRlcHeader :=
  { h with lengthIndicators := h.lengthIndicators ++ [lengthIndicator] }

def serialize (h : LteRlcHeader) : Option (List Byte) :=
  match h.extensionBits with
  | [] => none
  | e :: es => some (
    byte (((h.framingInfo <<< 3) &&& 0x18) ||| ((e <<< 2) &&& 0x04) |||
      ((h.sequenceNumber.value >>> 8) &&& 0x03)) ::
    byte (h.sequenceNumber.value &&& 0xff) :: serializeLis es h.lengthIndicators)

def addTo (h : LteRlcHeader) (packet : List Byte) : Option Pdu :=
  addHeader h.serialize h.headerLength packet

end LteRlcHeader

structure LteRlcUm where
  txBuffer : List Sdu
  txBufferSize : BitVec 32
  sequenceNumber : SequenceNumber10

namespace LteRlcUm

/-- `DoNotifyTxOpportunity`, with the PDU that is given to the MAC. -/
def doNotifyTxOpportunity (rlc : LteRlcUm) (bytes : Nat) : Option (LteRlcUm × Option Pdu) :=
  if bytes ≤ 2 then some (rlc, none)
  else
    match rlc.txBuffer with
    | [] => some (rlc, none)
    | first :: rest => do
      let field := buildDataField (bytes - 2) 1 first rest (rlc.txBufferSize - sizeOf first.bytes)
      let header := field.lengthIndicators.foldl LteRlcHeader.pushLengthIndicator
        (field.extensionBits.foldl LteRlcHeader.pushExtensionBit LteRlcHeader.initial)
      let framingInfo ← field.framingInfo
      let header := { header with sequenceNumber := rlc.sequenceNumber }
      let packet ← (header.setFramingInfo framingInfo).addTo field.data
      return ({ txBuffer := field.buffer
                txBufferSize := field.bufferSize
                sequenceNumber := rlc.sequenceNumber.succ }, some packet)

end LteRlcUm

end MoeJit.Lte
