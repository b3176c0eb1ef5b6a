import MoeJit.SixLowPan.Iphc
import MoeJit.SixLowPan.Ipv6Address

/-!
# The headers behind an IPHC header

An extension header is sent as its type, its next header if that is not compressed, and the bytes
that follow its first two (`SixLowPanNhcExtension`). A UDP header is sent without its length, and
without the bits of its ports that are those of the ports `f000` and `f0b0`
(`SixLowPanUdpNhcExtension`); the ports are put together again as they were (`reads_udp`).
-/

namespace MoeJit.SixLowPan

open Bytes ByteReader SizedReader

/-! ## 1. Model -/

/-- `AddHeader`. -/
def addHeader (bytes : List Byte) : Parser Unit := fun packet => .ok ((), bytes ++ packet)

def fail {α : Type} (failure : Failure) : Parser α := fun _ => .error failure

/-- A word with its low byte first, as `ReadU16` takes it. -/
def getLow : Parser (BitVec 16) := do
  let w ← raw 2
  return ofBytes 2 w

/-- Without a next header, the next header is compressed. -/
structure SixLowPanNhcExtension where
  eid : BitVec 3
  nextHeader : Option Byte
  blob : List Byte

namespace SixLowPanNhcExtension

/-- `m_nhcExtensionHeader`: `1110`, EID and NH. -/
def extensionHeader (eid : BitVec 3) (nh : Bool) : Byte :=
  0xe0 ||| (eid.setWidth 8 <<< 1) ||| (if nh then 1 else 0)

def serialize (h : SixLowPanNhcExtension) : List Byte :=
  [extensionHeader h.eid h.nextHeader.isNone] ++
    (h.nextHeader.toList ++ ([BitVec.ofNat 8 h.blob.length] ++ h.blob))

def deserialize : Parser SixLowPanNhcExtension := do
  let format ← byte
  let nextHeader ← readIf (!format.getLsbD 0) byte
  let blobLength ← byte
  let blob ← raw blobLength.toNat
  return { eid := format.extractLsb' 1 3, nextHeader, blob }

end SixLowPanNhcExtension

/-- `Ports_e`. -/
inductive Ports
  | inline
  | allSrcLastDst
  | lastSrcAllDst
  | lastSrcLastDst
  deriving DecidableEq

def Ports.bits : Ports → BitVec 2
  | inline => 0
  | allSrcLastDst => 1
  | lastSrcAllDst => 2
  | lastSrcLastDst => 3

def Ports.ofBits (x : BitVec 2) : Ports :=
  if x = 0 then inline else if x = 1 then allSrcLastDst else if x = 2 then lastSrcAllDst
  else lastSrcLastDst

/-- Without a checksum, it is made anew. -/
structure SixLowPanUdpNhcExtension where
  ports : Ports
  srcPort : BitVec 16
  dstPort : BitVec 16
  checksum : Option (BitVec 16)

namespace SixLowPanUdpNhcExtension

/-- `m_baseFormat`: `11110`, C and the ports. -/
def format (c : Bool) (ports : BitVec 2) : Byte :=
  0xf0 ||| (if c then 4 else 0) ||| ports.setWidth 8

def portBytes (h : SixLowPanUdpNhcExtension) : List Byte :=
  match h.ports with
  | .inline => put (k := 2) h.srcPort ++ put (k := 2) h.dstPort
  | .allSrcLastDst => put (k := 2) h.srcPort ++ [h.dstPort.setWidth 8]
  | .lastSrcAllDst => [h.srcPort.setWidth 8] ++ put (k := 2) h.dstPort
  | .lastSrcLastDst => [h.srcPort.setWidth 4 ++ h.dstPort.setWidth 4]

def serialize (h : SixLowPanUdpNhcExtension) : List Byte :=
  [format h.checksum.isNone h.ports.bits] ++
    (h.portBytes ++ h.checksum.toList.flatMap fun checksum => toBytes (k := 2) checksum)

def readPorts : Ports → Parser (BitVec 16 × BitVec 16)
  | .inline => do
    let srcPort ← get 2
    let dstPort ← get 2
    return (srcPort, dstPort)
  | .allSrcLastDst => do
    let srcPort ← get 2
    let dstPort ← byte
    return (srcPort, dstPort.setWidth 16)
  | .lastSrcAllDst => do
    let srcPort ← byte
    let dstPort ← get 2
    return (srcPort.setWidth 16, dstPort)
  | .lastSrcLastDst => do
    let temp ← byte
    return ((temp.extractLsb' 4 4).setWidth 16, (temp.extractLsb' 0 4).setWidth 16)

def deserialize : Parser SixLowPanUdpNhcExtension := do
  let base ← byte
  let ports := Ports.ofBits (base.extractLsb' 0 2)
  let (srcPort, dstPort) ← readPorts ports
  let checksum ← readIf (!base.getLsbD 2) getLow
  return { ports, srcPort, dstPort, checksum }

end SixLowPanUdpNhcExtension

structure UdpHeader where
  sourcePort : BitVec 16
  destinationPort : BitVec 16
  length : BitVec 16
  checksum : BitVec 16

namespace UdpHeader

def serialize (h : UdpHeader) : List Byte :=
  put (k := 2) h.sourcePort ++ (put (k := 2) h.destinationPort ++
    (put (k := 2) h.length ++ toBytes (k := 2) h.checksum))

def deserialize : Parser UdpHeader := do
  let sourcePort ← get 2
  let destinationPort ← get 2
  let length ← get 2
  let checksum ← getLow
  return { sourcePort, destinationPort, length, checksum }

/-- The sum of the words, whose low byte comes first, and of the byte that is left. -/
def sumWords : List Byte → Nat
  | low :: high :: bytes => (high ++ low).toNat + sumWords bytes
  | [low] => low.toNat
  | [] => 0

def addCarry (sum : Nat) : Nat := sum % 65536 + sum / 65536

/-- Of at most 65535 bytes, the carry is added twice at most. -/
def calculateIpChecksum (bytes : List Byte) (initialChecksum : Nat) : BitVec 16 :=
  ~~~BitVec.ofNat 16 (addCarry (addCarry
    (initialChecksum + sumWords (bytes.take (bytes.length % 65536)))))

def calculateHeaderChecksum (source destination : Ipv6Address) (size : Nat) : BitVec 16 :=
  ~~~calculateIpChecksum (List.ofFn source ++ List.ofFn destination ++
    ([0, 0] ++ put (k := 2) (BitVec.ofNat 16 size) ++ [0, 0, 0, 17])) 0

end UdpHeader

/-- The ports of which one or both ends are not sent. -/
def choosePorts (srcPort dstPort : BitVec 16) : Ports :=
  if srcPort >>> 4 = 0xf0b ∧ dstPort >>> 4 = 0xf0b then .lastSrcLastDst
  else if srcPort >>> 8 = 0xf0 ∧ dstPort >>> 8 ≠ 0xf0 then .lastSrcAllDst
  else if srcPort >>> 8 ≠ 0xf0 ∧ dstPort >>> 8 = 0xf0 then .allSrcLastDst
  else .inline

/-- A checksum that has been read is taken for a good one. -/
def compressLowPanUdpNhc (omitChecksum : Bool) : Parser Unit := do
  let udp ← UdpHeader.deserialize
  addHeader (SixLowPanUdpNhcExtension.serialize {
    ports := choosePorts udp.sourcePort udp.destinationPort
    srcPort := udp.sourcePort
    dstPort := udp.destinationPort
    checksum := if omitChecksum then none else some udp.checksum })

def rebuildPorts (h : SixLowPanUdpNhcExtension) : BitVec 16 × BitVec 16 :=
  match h.ports with
  | .inline => (h.srcPort, h.dstPort)
  | .allSrcLastDst => (h.srcPort, 0xf000 ||| h.dstPort)
  | .lastSrcAllDst => (0xf000 ||| h.srcPort, h.dstPort)
  | .lastSrcLastDst => (0xf0b0 ||| h.srcPort, 0xf0b0 ||| h.dstPort)

/-- The length is that of the packet, and the checksum that of the header or a new one. -/
def addUdpHeader (checksumEnabled : Bool) (saddr daddr : Ipv6Address) (ports : BitVec 16 × BitVec 16)
    (checksum : Option (BitVec 16)) : Parser Unit := fun packet =>
  let size := 8 + packet.length
  let udp : UdpHeader := ⟨ports.1, ports.2, BitVec.ofNat 16 size, 0⟩
  let made := UdpHeader.calculateIpChecksum (udp.serialize ++ packet)
    (UdpHeader.calculateHeaderChecksum saddr daddr size).toNat
  let written := if checksumEnabled then checksum.getD made else 0
  addHeader { udp with checksum := written }.serialize packet

def decompressLowPanUdpNhc (checksumEnabled : Bool) (saddr daddr : Ipv6Address) : Parser Unit := do
  let encoding ← SixLowPanUdpNhcExtension.deserialize
  addUdpHeader checksumEnabled saddr daddr (rebuildPorts encoding) encoding.checksum

/-! ## 2. Extension headers are read back -/

theorem reads_getLow (x : BitVec 16) : Reads getLow (toBytes (k := 2) x) x := by
  have h := (reads_raw (toBytes (k := 2) x) (ε := Failure)).map (f := ofBytes 2)
  rw [length_toBytes, ofBytes_toBytes] at h
  exact h

theorem extensionHeader_spec : ∀ (eid : BitVec 3) (nh : Bool),
    let format := SixLowPanNhcExtension.extensionHeader eid nh
    format.extractLsb' 1 3 = eid ∧ format.getLsbD 0 = nh ∧ format.toNat / 8 ≠ 0x1e := by
  decide

theorem reads_nhcExtension {h : SixLowPanNhcExtension} (hsize : h.blob.length < 256) :
    Reads SixLowPanNhcExtension.deserialize h.serialize h := by
  obtain ⟨heid, hnh, -⟩ := extensionHeader_spec h.eid h.nextHeader.isNone
  have hnone : (!h.nextHeader.isNone) = h.nextHeader.isSome := by
    cases h.nextHeader <;> rfl
  have hlen : (BitVec.ofNat 8 h.blob.length).toNat = h.blob.length := Nat.mod_eq_of_lt hsize
  refine (reads_byte _).bind ?_
  rw [hnh, heid, hnone]
  refine (SixLowPanIphc.reads_optional h.nextHeader).bind ((reads_byte _).bind ?_)
  rw [hlen]
  exact (reads_raw h.blob).map

/-! ## 3. UDP headers are put together again -/

theorem reads_udp (h : UdpHeader) : Reads UdpHeader.deserialize h.serialize h :=
  (reads_get (k := 2) h.sourcePort).bind ((reads_get (k := 2) h.destinationPort).bind
    ((reads_get (k := 2) h.length).bind (reads_getLow h.checksum).map))

theorem udpFormat_spec : ∀ (c : Bool) (ports : BitVec 2),
    let format := SixLowPanUdpNhcExtension.format c ports
    format.extractLsb' 0 2 = ports ∧ format.getLsbD 2 = c ∧ format.toNat / 8 = 0x1e := by
  decide

theorem ports_ofBits_bits (ports : Ports) : Ports.ofBits ports.bits = ports := by
  cases ports <;> decide

/-- A port of which the low bits are sent, under the high bits that it has. -/
theorem port_eq_of_shift {port high shifted : BitVec 16} {k : Nat} (h : port >>> k = high)
    (hshifted : high <<< k = shifted) : shifted ||| (port.setWidth k).setWidth 16 = port := by
  subst h
  subst hshifted
  ext i hi
  rw [BitVec.getElem_or, BitVec.getElem_shiftLeft, BitVec.getElem_setWidth, BitVec.getLsbD_setWidth]
  by_cases hlt : i < k
  · simp [hlt, BitVec.getLsbD_eq_getElem hi]
  · have hadd : k + (i - k) = i := by omega
    simp [hlt, hadd, BitVec.getLsbD_eq_getElem hi]

theorem reads_ports (srcPort dstPort : BitVec 16) (checksum : Option (BitVec 16)) :
    let ports := choosePorts srcPort dstPort
    let sent : SixLowPanUdpNhcExtension := ⟨ports, srcPort, dstPort, checksum⟩
    ∃ read, Reads (SixLowPanUdpNhcExtension.readPorts ports) sent.portBytes read ∧
      rebuildPorts ⟨ports, read.1, read.2, checksum⟩ = (srcPort, dstPort) := by
  rw [choosePorts]
  split
  · next h =>
    refine ⟨((srcPort.setWidth 4).setWidth 16, (dstPort.setWidth 4).setWidth 16), ?_, ?_⟩
    · have hread := (reads_byte (srcPort.setWidth 4 ++ dstPort.setWidth 4) (ε := Failure)).map
        (f := fun temp : Byte =>
          ((temp.extractLsb' 4 4).setWidth 16, (temp.extractLsb' 0 4).setWidth 16))
      rw [BitVec.extractLsb'_append_eq_left, BitVec.extractLsb'_append_eq_right] at hread
      exact hread
    · exact Prod.ext (port_eq_of_shift h.1 (by decide)) (port_eq_of_shift h.2 (by decide))
  · split
    · next h =>
      refine ⟨((srcPort.setWidth 8).setWidth 16, dstPort), ?_, ?_⟩
      · exact (reads_byte (srcPort.setWidth 8)).bind (reads_get (k := 2) dstPort).map
      · exact Prod.ext (port_eq_of_shift h.1 (by decide)) rfl
    · split
      · next h =>
        refine ⟨(srcPort, (dstPort.setWidth 8).setWidth 16), ?_, ?_⟩
        · exact (reads_get (k := 2) srcPort).bind (reads_byte (dstPort.setWidth 8)).map
        · exact Prod.ext rfl (port_eq_of_shift h.2 (by decide))
      · exact ⟨(srcPort, dstPort),
          (reads_get (k := 2) srcPort).bind (reads_get (k := 2) dstPort).map, rfl⟩

theorem reads_checksum (checksum : Option (BitVec 16)) : Reads (readIf checksum.isSome getLow)
      (checksum.toList.flatMap fun checksum => toBytes (k := 2) checksum) checksum :=
  reads_readIf (fun checksum : BitVec 16 => toBytes (k := 2) checksum) fun c _ => reads_getLow c

theorem udp_kept (omitChecksum : Bool) (udp : UdpHeader) (payload : List Byte) :
    ∃ encoding : SixLowPanUdpNhcExtension,
      compressLowPanUdpNhc omitChecksum (udp.serialize ++ payload) =
        .ok ((), encoding.serialize ++ payload) ∧
      ∀ checksumEnabled saddr daddr, ∃ checksum,
        decompressLowPanUdpNhc checksumEnabled saddr daddr (encoding.serialize ++ payload) =
          .ok ((), { udp with length := BitVec.ofNat 16 (8 + payload.length), checksum }.serialize ++
            payload) := by
  obtain ⟨read, hread, hports⟩ := reads_ports udp.sourcePort udp.destinationPort
    (if omitChecksum then none else some udp.checksum)
  generalize hc : (if omitChecksum then none else some udp.checksum) = c at hread hports
  generalize hp : choosePorts udp.sourcePort udp.destinationPort = ports at hread hports
  refine ⟨⟨ports, udp.sourcePort, udp.destinationPort, c⟩, ?_, fun checksumEnabled saddr daddr => ?_⟩
  · rw [compressLowPanUdpNhc, (reads_udp udp).bind_eq, hc, hp]
    rfl
  · obtain ⟨hbits, hnone, -⟩ := udpFormat_spec c.isNone ports.bits
    have hsome : (!c.isNone) = c.isSome := by
      cases c <;> rfl
    have hback : Reads SixLowPanUdpNhcExtension.deserialize
        (SixLowPanUdpNhcExtension.serialize ⟨ports, udp.sourcePort, udp.destinationPort, c⟩)
        ⟨ports, read.1, read.2, c⟩ := by
      refine (reads_byte _).bind ?_
      rw [hbits, hnone, hsome, ports_ofBits_bits]
      exact hread.bind (reads_checksum c).map
    have h := hback.bind_eq (fun encoding => addUdpHeader checksumEnabled saddr daddr
      (rebuildPorts encoding) encoding.checksum) payload
    rw [hports] at h
    exact ⟨_, h⟩

end MoeJit.SixLowPan
