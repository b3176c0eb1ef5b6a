import MoeJit.Lib.NestedReader
import MoeJit.SixLowPan.AddressCompression
import MoeJit.SixLowPan.Nhc

/-!
# The chain of headers of a compressed packet

The headers of a packet are compressed up to the first that cannot be, and the rest is sent as it is.
A packet comes back as it was when none of the headers that are compressed is a routing header or an
IPv6 header (`Chain.Restorable`), and the flow label is not cut off. A routing header never comes
back. An IPv6 header behind another one is sent as an IPHC header and is read as an extension header.
-/

namespace MoeJit.SixLowPan

open Bytes ByteReader SizedReader NestedReader
open BitVec (eq_of_toNat_eq ofNat setWidth_eq toNat_and toNat_eq toNat_or toNat_setWidth)
open Nat (mod_eq_of_lt zero_le)
open SixLowPanIphc (dstSize formatHigh hlimBits remove tfBits)

/-! ## 1. Model -/

structure Ipv6Header where
  trafficClass : Byte
  flowLabel : BitVec 32
  payloadLength : BitVec 16
  nextHeader : Byte
  hopLimit : Byte
  source : Ipv6Address
  destination : Ipv6Address

namespace Ipv6Header

/-- Version, traffic class and flow label. -/
def vTcFl (trafficClass : Byte) (flowLabel : BitVec 32) : BitVec 32 :=
  0x60000000#32 ||| (trafficClass.setWidth 32 <<< 20) ||| flowLabel

def serialize (h : Ipv6Header) : List Byte :=
  put (k := 4) (vTcFl h.trafficClass h.flowLabel) ++ (put (k := 2) h.payloadLength ++
    ([h.nextHeader] ++ ([h.hopLimit] ++ (h.source.part 0 16 ++ h.destination.part 0 16))))

def deserialize : Parser Ipv6Header := do
  let vTcFl ← get 4
  let payloadLength ← get 2
  let nextHeader ← byte
  let hopLimit ← byte
  let source ← raw 16
  let destination ← raw 16
  return {
    trafficClass := (vTcFl >>> 20).setWidth 8
    flowLabel := vTcFl &&& 0xfffff#32
    payloadLength, nextHeader, hopLimit
    source := Ipv6Address.ofPart 0 source
    destination := Ipv6Address.ofPart 0 destination }

end Ipv6Header

/-- What both ends share, and the memory of the sender. -/
structure Device where
  contexts : ContextTable
  now : Int
  src : MacAddress
  dst : MacAddress
  /-- What is in the bytes of a header that are not set. -/
  memory : Fin 10 → Byte
  omitUdpChecksum : Bool
  checksumEnabled : Bool

def ipv6ExtHopByHop : Byte := 0
def ipv6Udp : Byte := 17
def ipv6Ipv6 : Byte := 41
def ipv6ExtRouting : Byte := 43
def ipv6ExtFragmentation : Byte := 44
def ipv6ExtDestination : Byte := 60

def canCompressLowPanNhc (nextHeader : Byte) : Bool :=
  nextHeader ∈ [ipv6Udp, ipv6ExtHopByHop, ipv6ExtRouting, ipv6ExtFragmentation, ipv6Ipv6]

/-- `GetLength`, with the length byte. -/
def getLength (length : Byte) : Nat := 8 * (length.toNat + 1)

/-- The extension headers that can be sent. -/
inductive Extension
  | hopByHop
  | routing
  | fragmentation
  | destination

namespace Extension

def headerType : Extension → Byte
  | hopByHop => ipv6ExtHopByHop
  | routing => ipv6ExtRouting
  | fragmentation => ipv6ExtFragmentation
  | destination => ipv6ExtDestination

def eid : Extension → BitVec 3
  | hopByHop => 0
  | routing => 1
  | fragmentation => 2
  | destination => 3

def ofHeaderType (headerType : Byte) : Option Extension :=
  if headerType = ipv6ExtHopByHop then some hopByHop
  else if headerType = ipv6ExtRouting then some routing
  else if headerType = ipv6ExtFragmentation then some fragmentation
  else if headerType = ipv6ExtDestination then some destination
  else none

def ofEid (eid : BitVec 3) : Option Extension :=
  if eid = 0 then some hopByHop
  else if eid = 1 then some routing
  else if eid = 2 then some fragmentation
  else if eid = 3 then some destination
  else none

/-- Reads the next header, the length, and what is sent of the rest. Of a routing header, four bytes
are read, whatever its length is. -/
def read : Extension → Parser (Byte × Nat × List Byte)
  | hopByHop | destination => do
    let nextHeader ← byte
    let length ← byte
    let options ← raw (getLength length - 2)
    return (nextHeader, getLength length, options)
  | routing => do
    let nextHeader ← byte
    let length ← byte
    let types ← raw 2
    return (nextHeader, getLength length, types)
  | fragmentation => do
    let nextHeader ← byte
    let _reserved ← byte
    let data ← raw 6
    return (nextHeader, getLength 0, data)

/-- The options that fill a header up. -/
def padding (blobSize : Nat) : List Byte :=
  match (8 - (blobSize + 2) % 8) % 8 with
  | 0 => []
  | 1 => [0]
  | paddingSize + 2 => 1 :: BitVec.ofNat 8 paddingSize :: List.replicate paddingSize 0

/-- The length byte of so many bytes, of which the lower bits are dropped. -/
def lengthByte (size : Nat) : Byte := BitVec.ofNat 8 (size / 8) - 1

/-- The header that is put together again. A blob of 255 bytes does not fit the buffer. -/
def rebuild : Extension → Byte → List Byte → Except Failure (List Byte)
  | hopByHop, nextHeader, blob | destination, nextHeader, blob =>
    let size := blob.length + 2 + (padding blob.length).length
    if 260 < size then .error .aborted
    else .ok ([nextHeader, lengthByte size] ++ blob ++ padding blob.length)
  | routing, nextHeader, blob =>
    if blob.length < 2 then .error .invalid
    else .ok ([nextHeader, lengthByte (blob.length + 2)] ++ blob.take 2)
  | fragmentation, nextHeader, blob =>
    if blob.length < 6 then .error .invalid
    else .ok ([nextHeader, 0] ++ blob.take 6)

end Extension

/-- The calls that the compressors make for a next header. They return whether it is compressed. -/
abbrev Compressors := Byte → Parser Bool

/-- Nothing is done to a packet that is too long. -/
def compressLowPanNhc (next : Compressors) (headerType : Byte) : Parser Bool := fun packet =>
  match Extension.ofHeaderType headerType with
  | none => .error .aborted
  | some extension => (do
    let (nextHeader, length, blob) ← extension.read
    if length ≥ 0xff then (fun _ => .ok (false, packet))
    else do
      let nh ← next nextHeader
      addHeader (SixLowPanNhcExtension.serialize {
        eid := extension.eid
        nextHeader := if nh then none else some nextHeader
        blob })
      return true : Parser Bool) packet

def trafficFlow (trafficClass : Byte) (flowLabel : BitVec 32) : TrafficFlow :=
  if flowLabel = 0 ∧ trafficClass = 0 then .elided
  else if flowLabel ≠ 0 ∧ trafficClass ≠ 0 then
    .full (trafficClass.extractLsb' 6 2) (trafficClass.extractLsb' 0 6) (flowLabel.setWidth 24)
  else if flowLabel = 0 ∧ trafficClass ≠ 0 then
    .flElided (trafficClass.extractLsb' 6 2) (trafficClass.extractLsb' 0 6)
  else .dscpElided (trafficClass.extractLsb' 6 2) (flowLabel.setWidth 22)

def hlim (hopLimit : Byte) : Hlim :=
  if hopLimit = 1 then .compr1
  else if hopLimit = 0x40 then .compr64
  else if hopLimit = 0xff then .compr255
  else .inline hopLimit

/-- Nothing is done to a packet of another version. -/
def compressLowPanIphc (d : Device) (next : Compressors) : Parser Unit := fun packet => do
  let (vTcFl, _) ← get 4 packet
  if vTcFl >>> 28 ≠ 6 then .ok ((), packet)
  else (do
    let ip ← Ipv6Header.deserialize
    let nh ← next ip.nextHeader
    match compressAddresses d.memory d.contexts d.now d.src d.dst (trafficFlow ip.trafficClass ip.flowLabel)
        (if nh then none else some ip.nextHeader) (hlim ip.hopLimit) ip.source ip.destination with
    | none => fail .aborted
    | some iphc => iphc.add : Parser Unit) packet

def compressNextStep (d : Device) (next : Compressors) : Compressors := fun nextHeader =>
  if canCompressLowPanNhc nextHeader then
    if nextHeader = ipv6Udp then do
      compressLowPanUdpNhc d.omitUdpChecksum
      return true
    else if nextHeader = ipv6Ipv6 then do
      compressLowPanIphc d next
      return true
    else compressLowPanNhc next nextHeader
  else return false

def compressNext (d : Device) : Compressors := nested (compressNextStep d) (fail .aborted)

/-- The calls that the decompressors make for a compressed header, with the addresses of the last
IPv6 header. They return its type, and whether the packet is dropped. -/
abbrev Decompressors := Ipv6Address × Ipv6Address → Parser (Byte × Bool)

/-- The first byte, or zero, tells a UDP header from the others. -/
def decompressCompressed (d : Device) (nhc : Decompressors) : Decompressors := fun addresses packet =>
  if (packet.headD 0).toNat / 8 = 0x1e then
    (do
      decompressLowPanUdpNhc d.checksumEnabled addresses.1 addresses.2
      return (ipv6Udp, false) : Parser (Byte × Bool)) packet
  else nhc addresses packet

def decompressNext (d : Device) (nhc : Decompressors) (addresses : Ipv6Address × Ipv6Address) :
    Option Byte → Parser (Byte × Bool)
  | none => decompressCompressed d nhc addresses
  | some nextHeader => return (nextHeader, false)

/-- The traffic class and the flow label, of which twelve bits are taken when both are sent. -/
def TrafficFlow.restore : TrafficFlow → Byte × BitVec 32
  | full ecn dscp flowLabel => (ecn ++ dscp, flowLabel.setWidth 32 &&& 0xfff#32)
  | dscpElided ecn flowLabel => (ecn.setWidth 8 <<< 2, flowLabel.setWidth 32)
  | flElided ecn dscp => (ecn ++ dscp, 0)
  | elided => (0, 0)

def Hlim.restore : Hlim → Byte
  | inline hopLimit => hopLimit
  | compr1 => 1
  | compr64 => 64
  | compr255 => 255

/-- Returns whether the packet is dropped. -/
def decompressLowPanIphc (d : Device) (nhc : Decompressors) : Parser Bool := do
  let encoding ← SixLowPanIphc.remove
  match decompressAddresses d.contexts d.now d.src d.dst encoding with
  | .error failure => fail failure
  | .ok none => return true
  | .ok (some (source, destination)) => do
    let (nextHeader, dropped) ← decompressNext d nhc (source, destination) encoding.nextHeader
    if dropped then return true
    else do
      let payloadLength ← left
      addHeader (Ipv6Header.serialize {
        trafficClass := encoding.tf.restore.1
        flowLabel := encoding.tf.restore.2
        payloadLength := BitVec.ofNat 16 payloadLength
        nextHeader
        hopLimit := encoding.hlim.restore
        source, destination })
      return false

/-- Behind an extension header, it is not looked at whether the packet is dropped. -/
def decompressNhcStep (d : Device) (nhc : Decompressors) : Decompressors := fun addresses => do
  let encoding ← SixLowPanNhcExtension.deserialize
  match Extension.ofEid encoding.eid with
  | some extension => do
    let (nextHeader, _) ← decompressNext d nhc addresses encoding.nextHeader
    match extension.rebuild nextHeader encoding.blob with
    | .error failure => fail failure
    | .ok header => do
      addHeader header
      return (extension.headerType, false)
  | none =>
    if encoding.eid = 7 then do
      let dropped ← decompressLowPanIphc d nhc
      return if dropped then (0, true) else (ipv6Ipv6, false)
    else fail .aborted

def decompressLowPanNhc (d : Device) : Decompressors := nested (decompressNhcStep d) (fail .aborted)

def compressPacket (d : Device) : Parser Unit := compressLowPanIphc d (compressNext d)

def decompressPacket (d : Device) : Parser Bool := decompressLowPanIphc d (decompressLowPanNhc d)

/-! ## 2. No call is cut off -/

theorem consumes_of_byte {α : Type} {f : Byte → Parser α} (hf : ∀ b, Consumes (f b) 0) :
    Consumes (byte >>= f) 1 := consumes_byte.bind hf

theorem consumes_ipv6 : Consumes Ipv6Header.deserialize 4 :=
  (consumes_get 4).bind fun _ => ((consumes_get 2).mono (zero_le _)).bind fun _ =>
    (consumes_byte.mono (zero_le _)).bind fun _ =>
      (consumes_byte.mono (zero_le _)).bind fun _ =>
        ((consumes_raw 16).mono (zero_le _)).bind fun _ =>
          ((consumes_raw 16).mono (zero_le _)).bind fun _ => consumes_pure _

theorem consumes_extension (extension : Extension) : Consumes extension.read 1 := by
  have hnext {n : Nat} {α : Type} {f : List Byte → α} :
      Consumes (do let w ← raw n; return f w : Parser α) 0 :=
    ((consumes_raw n).mono (zero_le n)).bind fun _ => consumes_pure _
  cases extension with
  | hopByHop | routing | fragmentation | destination =>
    exact consumes_of_byte fun _ => (consumes_byte.mono (zero_le _)).bind fun _ => hnext

theorem consumes_nhcExtension : Consumes SixLowPanNhcExtension.deserialize 1 :=
  consumes_of_byte fun _ => (consumes_readIf _ (consumes_byte.mono (zero_le _))).bind fun _ =>
    (consumes_byte.mono (zero_le _)).bind fun _ =>
      ((consumes_raw _).mono (zero_le _)).bind fun _ => consumes_pure _

theorem consumes_iphc : Consumes remove 1 := by
  rintro s t ⟨h, hremove⟩
  cases s with
  | nil => cases hremove
  | cons b s =>
    rw [remove] at hremove
    cases hread : SixLowPanIphc.deserialize (b :: s) with
    | error failure =>
      rw [hread] at hremove
      cases hremove
    | ok read =>
      rw [hread] at hremove
      cases hremove
      have hsize : 2 ≤ read.1.getSerializedSize := by
        unfold SixLowPanIphc.getSerializedSize
        omega
      rw [List.length_drop, List.length_cons]
      omega

theorem bind_eq_of_eq {α β : Type} {x y : Parser α} {t : List Byte} (h : x t = y t)
    (f : α → Parser β) : (x >>= f) t = (y >>= f) t := by
  rw [bind_apply, bind_apply, h]

variable {s blob : List Byte} {flowLabel : BitVec 20} {e : Extension} {dropped : Bool}
  {length : Byte} {next : Chain}

theorem compressLowPanIphc_local (d : Device) {f g : Compressors}
    (h : ∀ i t, t.length < s.length → f i t = g i t) :
    compressLowPanIphc d f s = compressLowPanIphc d g s := by
  unfold compressLowPanIphc
  cases hread : (get 4 : Parser (BitVec 32)) s with
  | error failure => rfl
  | ok read =>
    show (if _ then _ else _) = if _ then _ else _
    refine if_congr Iff.rfl rfl ?_
    refine bind_congr_of_consumes consumes_ipv6 fun ip t ht => ?_
    exact bind_eq_of_eq (h _ t (by omega)) _

theorem compressLowPanNhc_local {f g : Compressors} (h : ∀ i t, t.length < s.length → f i t = g i t)
    (headerType : Byte) : compressLowPanNhc f headerType s = compressLowPanNhc g headerType s := by
  unfold compressLowPanNhc
  cases Extension.ofHeaderType headerType with
  | none => rfl
  | some extension =>
    refine bind_congr_of_consumes (consumes_extension extension) fun read t ht => ?_
    dsimp only
    split
    · rfl
    · exact bind_eq_of_eq (h _ t (by omega)) _

section

variable (d : Device)

theorem compressNextStep_local : Local (compressNextStep d) := by
  intro f g s h nextHeader
  unfold compressNextStep
  split
  · split
    · rfl
    · split
      · exact bind_eq_of_eq (compressLowPanIphc_local d h) _
      · exact compressLowPanNhc_local h nextHeader
  · rfl

theorem decompressNext_congr {f g : Decompressors} {t : List Byte}
    (h : ∀ i, f i t = g i t) (addresses : Ipv6Address × Ipv6Address) (nextHeader : Option Byte) :
    decompressNext d f addresses nextHeader t = decompressNext d g addresses nextHeader t := by
  cases nextHeader with
  | none =>
    show (if _ then _ else _) = if _ then _ else _
    rw [h]
  | some nextHeader => rfl

theorem decompressLowPanIphc_local {f g : Decompressors}
    (h : ∀ i t, t.length < s.length → f i t = g i t) :
    decompressLowPanIphc d f s = decompressLowPanIphc d g s := by
  refine bind_congr_of_consumes consumes_iphc fun encoding t ht => ?_
  dsimp only
  cases decompressAddresses d.contexts d.now d.src d.dst encoding with
  | error failure => rfl
  | ok addresses =>
    cases addresses with
    | none => rfl
    | some addresses =>
      exact bind_eq_of_eq (decompressNext_congr d (fun i => h i t (by omega)) _ _) _

theorem decompressNhcStep_local : Local (decompressNhcStep d) := by
  intro f g s h addresses
  refine bind_congr_of_consumes consumes_nhcExtension fun encoding t ht => ?_
  cases Extension.ofEid encoding.eid with
  | some extension =>
    exact bind_eq_of_eq (decompressNext_congr d (fun i => h i t (by omega)) _ _) _
  | none =>
    dsimp only
    split
    · exact bind_eq_of_eq (decompressLowPanIphc_local d fun i u hu => h i u (by omega)) _
    · rfl

theorem compressNext_eq (nextHeader : Byte) (packet : List Byte) :
    compressNext d nextHeader packet = compressNextStep d (compressNext d) nextHeader packet :=
  nested_eq (compressNextStep_local d) nextHeader packet

theorem decompressLowPanNhc_eq (addresses : Ipv6Address × Ipv6Address)
    (packet : List Byte) : decompressLowPanNhc d addresses packet =
      decompressNhcStep d (decompressLowPanNhc d) addresses packet :=
  nested_eq (decompressNhcStep_local d) addresses packet

end

/-! ## 3. IPv6 headers are read back -/

theorem toNat_vTcFl (trafficClass : Byte) (flowLabel : BitVec 20) :
    (Ipv6Header.vTcFl trafficClass (flowLabel.setWidth 32)).toNat =
      6 * 2 ^ 28 + (trafficClass.toNat * 2 ^ 20 + flowLabel.toNat) := by
  have hclass := trafficClass.isLt
  have hlabel := flowLabel.isLt
  have hshift : ((trafficClass.setWidth 32) <<< 20 : BitVec 32).toNat = trafficClass.toNat <<< 20 := by
    have hsmall : trafficClass.toNat * 2 ^ 20 < 2 ^ 32 := by omega
    rw [BitVec.toNat_shiftLeft, toNat_setWidth, mod_eq_of_lt (hclass.trans (by decide)),
      Nat.shiftLeft_eq, mod_eq_of_lt hsmall]
  have hfl : (flowLabel.setWidth 32).toNat = flowLabel.toNat := by
    rw [toNat_setWidth, mod_eq_of_lt (hlabel.trans (by decide))]
  rw [Ipv6Header.vTcFl, BitVec.or_assoc, toNat_or, toNat_or, hshift, hfl,
    ← Nat.shiftLeft_add_eq_or_of_lt hlabel, Nat.shiftLeft_eq]
  have hsix : (0x60000000#32).toNat = 6 <<< 28 := rfl
  rw [hsix, ← Nat.shiftLeft_add_eq_or_of_lt (by omega), Nat.shiftLeft_eq]

theorem vTcFl_spec (trafficClass : Byte) (flowLabel : BitVec 20) :
    let v := Ipv6Header.vTcFl trafficClass (flowLabel.setWidth 32)
    v >>> 28 = 6 ∧ (v >>> 20).setWidth 8 = trafficClass ∧ v &&& 0xfffff#32 = flowLabel.setWidth 32 := by
  have hv := toNat_vTcFl trafficClass flowLabel
  have hclass := trafficClass.isLt
  have hlabel := flowLabel.isLt
  refine ⟨eq_of_toNat_eq ?_, eq_of_toNat_eq ?_, eq_of_toNat_eq ?_⟩
  · rw [BitVec.toNat_ushiftRight, hv, Nat.shiftRight_eq_div_pow]
    show _ = 6
    omega
  · rw [toNat_setWidth, BitVec.toNat_ushiftRight, hv, Nat.shiftRight_eq_div_pow]
    omega
  · have hmask : (0xfffff#32).toNat = 2 ^ 20 - 1 := rfl
    rw [toNat_and, hv, hmask, Nat.and_two_pow_sub_one_eq_mod, toNat_setWidth]
    omega

theorem reads_ipv6 {h : Ipv6Header} (hlabel : h.flowLabel = flowLabel.setWidth 32) :
    Reads Ipv6Header.deserialize h.serialize h := by
  obtain ⟨-, hclass, hfl⟩ := vTcFl_spec h.trafficClass flowLabel
  rw [← hlabel] at hclass hfl
  have hpart (a : Ipv6Address) : Reads (raw 16 : Parser (List Byte)) (a.part 0 16) (a.part 0 16) := by
    have hread := reads_raw (ε := Failure) (a.part 0 16)
    rwa [a.length_part (by decide)] at hread
  refine (reads_get (k := 4) (Ipv6Header.vTcFl h.trafficClass h.flowLabel)).bind ?_
  rw [hclass, hfl]
  refine (reads_get (k := 2) h.payloadLength).bind ((reads_byte h.nextHeader).bind
    ((reads_byte h.hopLimit).bind ((hpart h.source).bind ?_)))
  have hback := (hpart h.destination).map (f := fun destination =>
    Ipv6Header.mk h.trafficClass h.flowLabel h.payloadLength h.nextHeader h.hopLimit h.source
      (Ipv6Address.ofPart 0 destination))
  rw [ofPart_zero] at hback
  rw [ofPart_zero]
  exact hback

/-! ## 4. Chains of headers -/

/-- The rest of a header with this length byte, behind its first bytes. -/
abbrev Rest (length : Byte) (first : Nat) := { l : List Byte // l.length = getLength length - first }

/-- What follows an IPv6 header. The next header of an IPv6 header in the chain is that of what
follows it. -/
inductive Chain
  | payload (nextHeader : Byte)
      (plain : nextHeader ∉ [ipv6ExtHopByHop, ipv6Udp, ipv6Ipv6, ipv6ExtRouting,
        ipv6ExtFragmentation, ipv6ExtDestination])
      (bytes : List Byte)
  | udp (header : UdpHeader) (bytes : List Byte)
  | hopByHop (length : Byte) (options : Rest length 2) (next : Chain)
  | routing (length typeRouting segmentsLeft : Byte) (data : Rest length 4) (next : Chain)
  | fragmentation (offset : BitVec 16) (identification : BitVec 32) (next : Chain)
  | destination (length : Byte) (options : Rest length 2) (next : Chain)
  | ipv6 (header : Ipv6Header) (label : header.flowLabel.toNat < 2 ^ 20) (next : Chain)

namespace Chain

def nextHeader : Chain → Byte
  | payload nextHeader _ _ => nextHeader
  | udp _ _ => ipv6Udp
  | hopByHop _ _ _ => ipv6ExtHopByHop
  | routing _ _ _ _ _ => ipv6ExtRouting
  | fragmentation _ _ _ => ipv6ExtFragmentation
  | destination _ _ _ => ipv6ExtDestination
  | ipv6 _ _ _ => ipv6Ipv6

def serialize : Chain → List Byte
  | payload _ _ bytes => bytes
  | udp header bytes => header.serialize ++ bytes
  | hopByHop length options next => [next.nextHeader, length] ++ options.val ++ next.serialize
  | routing length typeRouting segmentsLeft data next =>
    [next.nextHeader, length, typeRouting, segmentsLeft] ++ (data.val ++ next.serialize)
  | fragmentation offset identification next =>
    [next.nextHeader, 0] ++ (put (k := 2) offset ++ put (k := 4) identification) ++ next.serialize
  | destination length options next => [next.nextHeader, length] ++ options.val ++ next.serialize
  | ipv6 header _ next => { header with nextHeader := next.nextHeader }.serialize ++ next.serialize

/-- The chain with another length and checksum of the UDP header at its end. -/
def withUdp (length checksum : BitVec 16) : Chain → Chain
  | payload nextHeader plain bytes => payload nextHeader plain bytes
  | udp header bytes => udp { header with length, checksum } bytes
  | hopByHop l options next => hopByHop l options (next.withUdp length checksum)
  | routing l typeRouting segmentsLeft data next =>
    routing l typeRouting segmentsLeft data (next.withUdp length checksum)
  | fragmentation offset identification next =>
    fragmentation offset identification (next.withUdp length checksum)
  | destination l options next => destination l options (next.withUdp length checksum)
  | ipv6 header label next => ipv6 header label (next.withUdp length checksum)

/-- None of the headers up to the first that is not compressed is a routing or an IPv6 header. -/
def Restorable : Chain → Prop
  | payload _ _ _ | udp _ _ | destination _ _ _ => True
  | hopByHop length _ next => 0xff ≤ getLength length ∨ next.Restorable
  | routing length _ _ _ _ => 0xff ≤ getLength length
  | fragmentation _ _ next => next.Restorable
  | ipv6 _ _ _ => False

/-- The first routing or IPv6 header that is compressed is an IPv6 header that is sent with a first
byte that stands for an IPv6 header when it is read as an extension header. -/
def Ambiguous : Chain → Prop
  | payload _ _ _ | udp _ _ | destination _ _ _ | routing _ _ _ _ _ => False
  | hopByHop length _ next => getLength length < 0xff ∧ next.Ambiguous
  | fragmentation _ _ next => next.Ambiguous
  | ipv6 header _ next => header.trafficClass = 0 ∧ (header.hopLimit = 64 ∨ header.hopLimit = 255) ∧
    canCompressLowPanNhc next.nextHeader = true

/-- The bytes are those of the chain, but for the length and the checksum of the UDP header. -/
def Returned (c : Chain) (bytes : List Byte) : Prop :=
  ∃ length checksum, bytes = (c.withUdp length checksum).serialize

theorem nextHeader_withUdp (length checksum : BitVec 16) (c : Chain) :
    (c.withUdp length checksum).nextHeader = c.nextHeader := by
  cases c <;> rfl

theorem returned_self (c : Chain) : c.Returned c.serialize := by
  have hsame : ∃ length checksum, c.withUdp length checksum = c := by
    induction c with
    | payload nextHeader plain bytes => exact ⟨0, 0, rfl⟩
    | udp header bytes => exact ⟨header.length, header.checksum, rfl⟩
    | hopByHop length options next ih =>
      obtain ⟨l, k, h⟩ := ih
      exact ⟨l, k, congrArg (hopByHop length options) h⟩
    | routing length typeRouting segmentsLeft data next ih =>
      obtain ⟨l, k, h⟩ := ih
      exact ⟨l, k, congrArg (routing length typeRouting segmentsLeft data) h⟩
    | fragmentation offset identification next ih =>
      obtain ⟨l, k, h⟩ := ih
      exact ⟨l, k, congrArg (fragmentation offset identification) h⟩
    | destination length options next ih =>
      obtain ⟨l, k, h⟩ := ih
      exact ⟨l, k, congrArg (destination length options) h⟩
    | ipv6 header label next ih =>
      obtain ⟨l, k, h⟩ := ih
      exact ⟨l, k, congrArg (ipv6 header label) h⟩
  obtain ⟨l, k, h⟩ := hsame
  exact ⟨l, k, (congrArg serialize h).symm⟩

/-- The chain comes back from what is sent of it, with the packet dropped or not. -/
def Comes (d : Device) (addresses : Ipv6Address × Ipv6Address) (c : Chain) (dropped : Bool) : Prop :=
  ∃ nh compressed bytes, compressNext d c.nextHeader c.serialize = .ok (nh, compressed) ∧
    decompressNext d (decompressLowPanNhc d) addresses (if nh then none else some c.nextHeader)
      compressed = .ok ((c.nextHeader, dropped), bytes) ∧ c.Returned bytes

end Chain

/-! ## 5. One header -/

section OneHeader

variable {d : Device} {addresses : Ipv6Address × Ipv6Address} {c : Chain}

theorem comes_of_unchanged
    (h : compressNext d c.nextHeader c.serialize = .ok (false, c.serialize)) :
    c.Comes d addresses false :=
  ⟨false, c.serialize, c.serialize, h, rfl, c.returned_self⟩

theorem comes_of_not_compressible (h : canCompressLowPanNhc c.nextHeader = false) :
    c.Comes d addresses false := by
  apply comes_of_unchanged
  rw [compressNext_eq, compressNextStep, h]
  rfl

theorem comes_udp (header : UdpHeader) (bytes : List Byte) :
    (Chain.udp header bytes).Comes d addresses false := by
  obtain ⟨encoding, hcompress, hback⟩ := udp_kept d.omitUdpChecksum header bytes
  obtain ⟨checksum, hback⟩ := hback d.checksumEnabled addresses.1 addresses.2
  have hcompressed : compressNext d ipv6Udp (header.serialize ++ bytes) =
      .ok (true, encoding.serialize ++ bytes) := by
    rw [compressNext_eq]
    show (compressLowPanUdpNhc d.omitUdpChecksum >>= _) _ = _
    rw [bind_apply, hcompress]
    rfl
  refine ⟨true, _, _, hcompressed, ?_, ofNat 16 (8 + bytes.length), checksum, rfl⟩
  have hdispatch : ((encoding.serialize ++ bytes).headD 0).toNat / 8 = 0x1e :=
    (udpFormat_spec encoding.checksum.isNone encoding.ports.bits).2.2
  show decompressCompressed _ _ _ _ = _
  rw [decompressCompressed, if_pos hdispatch, bind_apply, hback]
  rfl

/-- Whether an extension header is taken for one that can be compressed. -/
theorem compress_extension (he : canCompressLowPanNhc e.headerType = true) {w : List Byte}
    {nextHeader : Byte} {length : Nat} (hread : Reads e.read w (nextHeader, length, blob))
    (packet : List Byte) :
    compressNext d e.headerType (w ++ packet) = if length ≥ 0xff then .ok (false, w ++ packet)
      else (do
        let nh ← compressNext d nextHeader
        addHeader (SixLowPanNhcExtension.serialize
          ⟨e.eid, if nh then none else some nextHeader, blob⟩)
        return true : Parser Bool) packet := by
  have htype : Extension.ofHeaderType e.headerType = some e := by
    cases e <;> rfl
  have hudp : e.headerType ≠ ipv6Udp ∧ e.headerType ≠ ipv6Ipv6 := by
    cases e <;> decide
  rw [compressNext_eq, compressNextStep, if_pos he, if_neg hudp.1, if_neg hudp.2,
    compressLowPanNhc, htype]
  dsimp only
  rw [hread.bind_eq]
  dsimp only
  split
  · rfl
  · rfl

theorem decompress_extension (e : Extension) (o : Option Byte) (hblob : blob.length < 256)
    (packet : List Byte) :
    decompressNext d (decompressLowPanNhc d) addresses none
        (SixLowPanNhcExtension.serialize ⟨e.eid, o, blob⟩ ++ packet) =
      (do
        let (nextHeader, _) ← decompressNext d (decompressLowPanNhc d) addresses o
        match e.rebuild nextHeader blob with
        | .error failure => fail failure
        | .ok header => do
          addHeader header
          return (e.headerType, false) : Parser (Byte × Bool)) packet := by
  have heid : Extension.ofEid e.eid = some e := by
    cases e <;> rfl
  have hdispatch : ¬((SixLowPanNhcExtension.serialize ⟨e.eid, o, blob⟩ ++ packet).headD 0).toNat / 8 =
      0x1e := (extensionHeader_spec e.eid o.isNone).2.2
  show decompressCompressed _ _ _ _ = _
  rw [decompressCompressed, if_neg hdispatch, decompressLowPanNhc_eq, decompressNhcStep,
    (reads_nhcExtension hblob).bind_eq]
  dsimp only
  rw [heid]

/-- An extension header comes back when it is put together as it was, and what follows it comes
back. -/
theorem comes_extension_iff (he : canCompressLowPanNhc e.headerType = true) {w rest : List Byte}
    {next : Byte} {length : Nat} (hread : Reads e.read w (next, length, blob))
    (hshort : length < 0xff) (hblob : blob.length < 256) (htype : c.nextHeader = e.headerType)
    (hbytes : c.serialize = w ++ rest) :
    c.Comes d addresses dropped ↔ dropped = false ∧
      ∃ nh compressed nextHeader dropped' bytes header,
        compressNext d next rest = .ok (nh, compressed) ∧
        decompressNext d (decompressLowPanNhc d) addresses (if nh then none else some next)
          compressed = .ok ((nextHeader, dropped'), bytes) ∧
        e.rebuild nextHeader blob = .ok header ∧ c.Returned (header ++ bytes) := by
  rw [Chain.Comes, htype, hbytes, compress_extension he hread, if_neg (not_le.mpr hshort)]
  constructor
  · rintro ⟨nh, compressed, bytes, hcompress, hback, hreturned⟩
    obtain ⟨nh', q, hnext, hcompress⟩ := bind_eq_ok.mp hcompress
    cases hcompress
    rw [if_pos rfl] at hback
    have hback' := (decompress_extension e _ hblob q).symm.trans hback
    obtain ⟨⟨nextHeader, dropped'⟩, r, hnext', hback'⟩ := bind_eq_ok.mp hback'
    dsimp only at hback'
    cases hrebuild : e.rebuild nextHeader blob with
    | error failure =>
      rw [hrebuild] at hback'
      cases hback'
    | ok header =>
      rw [hrebuild] at hback'
      cases hback'
      exact ⟨rfl, nh', q, nextHeader, dropped', r, header, hnext, hnext', hrebuild, hreturned⟩
  · rintro ⟨rfl, nh, q, nextHeader, dropped', r, header, hnext, hnext', hrebuild, hreturned⟩
    refine ⟨true, _, header ++ r, bind_eq_ok.mpr ⟨nh, q, hnext, rfl⟩, ?_, hreturned⟩
    rw [if_pos rfl]
    refine (decompress_extension e _ hblob q).trans (bind_eq_ok.mpr ⟨_, r, hnext', ?_⟩)
    dsimp only
    rw [hrebuild]
    rfl

theorem length_rest {first : Nat} (rest : Rest length first) (h : first ≤ 8) :
    rest.val.length + first = getLength length := by
  have hlen := rest.property
  unfold getLength at *
  omega

/-- A header with a blob that fills it up is put together as it was. -/
theorem rebuild_options (options : Rest length 2) (hshort : getLength length < 0xff)
    (nextHeader : Byte) : Extension.hopByHop.rebuild nextHeader options.val =
      .ok ([nextHeader, length] ++ options.val) := by
  have hsize := length_rest options (by decide)
  have hpadding : Extension.padding options.val.length = [] := by
    have hmod : (8 - (options.val.length + 2) % 8) % 8 = 0 := by
      unfold getLength at hsize
      omega
    rw [Extension.padding, hmod]
  have hlen : Extension.lengthByte (getLength length) = length := by
    apply eq_of_toNat_eq
    have hlt := length.isLt
    rw [Extension.lengthByte, getLength, Nat.mul_div_cancel_left _ (by decide),
      BitVec.toNat_sub, BitVec.toNat_ofNat]
    show (256 - 1 + _) % 256 = _
    omega
  rw [Extension.rebuild, hpadding, List.length_nil, add_zero, hsize, hlen, List.append_nil,
    if_neg (not_lt.mpr (hshort.le.trans (by decide)))]

theorem reads_options (options : Rest length 2) (nextHeader : Byte) :
    Reads Extension.hopByHop.read ([nextHeader, length] ++ options.val)
      (nextHeader, getLength length, options.val) := by
  have hraw := reads_raw (ε := Failure) options.val
  rw [options.property] at hraw
  exact (reads_byte nextHeader).bind ((reads_byte length).bind hraw.map)

/-- A header of which all but the next header is put together as it was comes back when what follows
it does. -/
theorem comes_rebuilt_iff (he : canCompressLowPanNhc e.headerType = true)
    (hread : Reads e.read ([next.nextHeader, length] ++ blob) (next.nextHeader, getLength length,
      blob)) (hshort : getLength length < 0xff) (hblob : blob.length < 256)
    (hrebuild : ∀ nextHeader, e.rebuild nextHeader blob = .ok ([nextHeader, length] ++ blob))
    (htype : c.nextHeader = e.headerType)
    (hbytes : c.serialize = [next.nextHeader, length] ++ blob ++ next.serialize)
    (hwith : ∀ l k, (c.withUdp l k).serialize =
      [(next.withUdp l k).nextHeader, length] ++ blob ++ (next.withUdp l k).serialize) :
    c.Comes d addresses dropped ↔ dropped = false ∧ ∃ dropped', next.Comes d addresses dropped' := by
  rw [comes_extension_iff he hread hshort hblob htype hbytes]
  refine and_congr_right fun _ => ⟨?_, ?_⟩
  · rintro ⟨nh, compressed, nextHeader, dropped', bytes, header, hcompress, hback, hheader, l, k, h⟩
    cases (hrebuild nextHeader).symm.trans hheader
    obtain ⟨hheader, hbytes⟩ := List.append_inj (h.trans (hwith l k)) rfl
    have hnext : nextHeader = next.nextHeader :=
      (List.cons.inj hheader).1.trans (next.nextHeader_withUdp l k)
    rw [hnext] at hback
    exact ⟨dropped', nh, compressed, bytes, hcompress, hback, l, k, hbytes⟩
  · rintro ⟨dropped', nh, compressed, bytes, hcompress, hback, l, k, rfl⟩
    refine ⟨nh, compressed, next.nextHeader, dropped', _, _, hcompress, hback,
      hrebuild next.nextHeader, l, k, ?_⟩
    rw [hwith, Chain.nextHeader_withUdp]

theorem comes_hopByHop_iff {options : Rest length 2} (hshort : getLength length < 0xff) :
    (Chain.hopByHop length options next).Comes d addresses dropped ↔
      dropped = false ∧ ∃ dropped', next.Comes d addresses dropped' := by
  have hsize := length_rest options (by decide)
  exact comes_rebuilt_iff (e := .hopByHop) rfl (reads_options options next.nextHeader) hshort
    (by omega) (rebuild_options options hshort) rfl rfl fun _ _ => rfl

theorem comes_fragmentation_iff {offset : BitVec 16} {identification : BitVec 32} :
    (Chain.fragmentation offset identification next).Comes d addresses dropped ↔
      dropped = false ∧ ∃ dropped', next.Comes d addresses dropped' := by
  have hlen : (put (k := 2) offset ++ put (k := 4) identification).length = 6 := by
    rw [List.length_append, length_put, length_put]
  have hraw := reads_raw (ε := Failure) (put (k := 2) offset ++ put (k := 4) identification)
  rw [hlen] at hraw
  refine comes_rebuilt_iff (e := .fragmentation) rfl
    ((reads_byte next.nextHeader).bind ((reads_byte 0).bind hraw.map)) (by decide)
    (hlen.trans_lt (by decide)) (fun nextHeader => ?_) rfl rfl fun _ _ => rfl
  rw [Extension.rebuild, hlen, if_neg (by decide), List.take_of_length_le hlen.le]

theorem reads_routing (nextHeader length typeRouting segmentsLeft : Byte) :
    Reads Extension.routing.read [nextHeader, length, typeRouting, segmentsLeft]
      (nextHeader, getLength length, [typeRouting, segmentsLeft]) :=
  (reads_byte nextHeader).bind ((reads_byte length).bind
    (reads_raw [typeRouting, segmentsLeft]).map)

theorem not_comes_routing {typeRouting segmentsLeft : Byte} {data : Rest length 4}
    (hshort : getLength length < 0xff) :
    ¬(Chain.routing length typeRouting segmentsLeft data next).Comes d addresses dropped := by
  have hread := reads_routing next.nextHeader length typeRouting segmentsLeft
  have hblob : [typeRouting, segmentsLeft].length < 256 := (by decide : 2 < 256)
  rw [comes_extension_iff (e := .routing) rfl hread hshort hblob rfl rfl]
  rintro ⟨-, nh, compressed, nextHeader, dropped', bytes, header, -, -, hheader, l, k, h⟩
  cases hheader
  have hlost : Extension.lengthByte 4 = 255 := by decide
  have hlen : Extension.lengthByte 4 = length := (List.cons.inj (List.cons.inj h).2).1
  rw [← hlen, hlost] at hshort
  exact absurd hshort (by decide)

/-- A header that is too long is not compressed, and neither is what follows it. -/
theorem comes_of_long (he : canCompressLowPanNhc e.headerType = true) {w rest : List Byte}
    {next : Byte} {length : Nat} (hread : Reads e.read w (next, length, blob))
    (hlong : 0xff ≤ length) (htype : c.nextHeader = e.headerType) (hbytes : c.serialize = w ++ rest)
    : c.Comes d addresses false := by
  apply comes_of_unchanged
  rw [htype, hbytes, compress_extension he hread, if_pos hlong]

/-- A packet is compressed as its next header and its addresses are. -/
theorem compressPacket_eq (ip : Ipv6Header) (hlabel : ip.flowLabel = flowLabel.setWidth 32)
    (packet : List Byte) :
    compressPacket d (ip.serialize ++ packet) = (do
      let nh ← compressNext d ip.nextHeader
      match compressAddresses d.memory d.contexts d.now d.src d.dst
          (trafficFlow ip.trafficClass ip.flowLabel) (if nh then none else some ip.nextHeader)
          (hlim ip.hopLimit) ip.source ip.destination with
      | none => fail .aborted
      | some iphc => iphc.add : Parser Unit) packet := by
  have hread := reads_get (k := 4) (ε := Failure) (Ipv6Header.vTcFl ip.trafficClass ip.flowLabel)
  have hversion := (vTcFl_spec ip.trafficClass flowLabel).1
  rw [← hlabel] at hversion
  have hword : ∃ rest, (get 4 : Parser (BitVec 32)) (ip.serialize ++ packet) =
      .ok (Ipv6Header.vTcFl ip.trafficClass ip.flowLabel, rest) := by
    rw [Ipv6Header.serialize, List.append_assoc]
    exact ⟨_, hread _⟩
  obtain ⟨rest, hword⟩ := hword
  rw [compressPacket, compressLowPanIphc, hword]
  show (if _ then _ else _) = _
  rw [if_neg (not_not.mpr hversion), (reads_ipv6 hlabel).bind_eq]

theorem eid_of_decompress_ipv6 {format : Byte} {packet bytes : List Byte}
    (h : decompressNext d (decompressLowPanNhc d) addresses none (format :: packet) =
      .ok ((ipv6Ipv6, dropped), bytes)) : format.extractLsb' 1 3 = 7 := by
  change decompressCompressed _ _ _ _ = _ at h
  rw [decompressCompressed] at h
  split at h
  · obtain ⟨_, _, -, h⟩ := bind_eq_ok.mp h
    cases h
  · rw [decompressLowPanNhc_eq, decompressNhcStep] at h
    obtain ⟨encoding, t, hencoding, h⟩ := bind_eq_ok.mp h
    have heid : encoding.eid = format.extractLsb' 1 3 := by
      obtain ⟨b, u, hb, hencoding⟩ := bind_eq_ok.mp hencoding
      cases hb
      obtain ⟨_, _, -, hencoding⟩ := bind_eq_ok.mp hencoding
      obtain ⟨_, _, -, hencoding⟩ := bind_eq_ok.mp hencoding
      obtain ⟨_, _, -, hencoding⟩ := bind_eq_ok.mp hencoding
      cases hencoding
      rfl
    dsimp only at h
    cases htype : Extension.ofEid encoding.eid with
    | some e =>
      rw [htype] at h
      obtain ⟨⟨nextHeader, _⟩, u, -, h⟩ := bind_eq_ok.mp h
      dsimp only at h
      cases hrebuild : e.rebuild nextHeader encoding.blob with
      | error failure =>
        rw [hrebuild] at h
        cases h
      | ok header =>
        rw [hrebuild] at h
        have hsame : e.headerType = ipv6Ipv6 := congrArg (fun r => r.1.1) (Except.ok.inj h)
        cases e <;> exact absurd hsame (by decide)
    | none =>
      rw [htype] at h
      dsimp only at h
      split at h
      · next hseven => exact heid.symm.trans hseven
      · cases h

theorem iphc_format_spec : ∀ (tf : BitVec 2) (nh : Bool) (hlim : BitVec 2),
    (formatHigh tf nh hlim).extractLsb' 1 3 = 7 →
      tf.getLsbD 0 = true ∧ nh = true ∧ hlim.getLsbD 1 = true := by
  decide

theorem compress_ipv6 (packet : List Byte) :
    compressNext d ipv6Ipv6 packet = (do
      compressPacket d
      return true : Parser Bool) packet := by
  rw [compressNext_eq, compressNextStep, if_pos (by decide), if_neg (by decide), if_pos rfl,
    compressPacket]

theorem setWidth_of_label {label : BitVec 32} (h : label.toNat < 2 ^ 20) :
    label = (label.setWidth 20).setWidth 32 := by
  apply eq_of_toNat_eq
  rw [toNat_setWidth, toNat_setWidth]
  omega

theorem trafficClass_of_tfBits {trafficClass : Byte} {flowLabel : BitVec 32} {iphc : SixLowPanIphc}
    (h : iphc.tfBits.getLsbD 0 = true) (htf : iphc.tf = trafficFlow trafficClass flowLabel) :
    trafficClass = 0 := by
  by_contra hne
  rw [tfBits, htf, trafficFlow, if_neg fun h => hne h.2] at h
  by_cases hfl : flowLabel = 0
  · rw [if_neg fun h => h.1 hfl, if_pos ⟨hfl, hne⟩] at h
    dsimp only at h
    exact absurd h (by decide)
  · rw [if_pos ⟨hfl, hne⟩] at h
    dsimp only at h
    exact absurd h (by decide)

theorem hopLimit_of_hlimBits {hopLimit : Byte} {iphc : SixLowPanIphc}
    (h : iphc.hlimBits.getLsbD 1 = true) (hhlim : iphc.hlim = hlim hopLimit) :
    hopLimit = 64 ∨ hopLimit = 255 := by
  by_cases h64 : hopLimit = 64
  · exact .inl h64
  by_cases h255 : hopLimit = 255
  · exact .inr h255
  rw [hlimBits, hhlim, hlim, if_neg h64, if_neg h255] at h
  by_cases h1 : hopLimit = 1
  · rw [if_pos h1] at h
    dsimp only at h
    exact absurd h (by decide)
  · rw [if_neg h1] at h
    dsimp only at h
    exact absurd h (by decide)

/-- An IPv6 header that is compressed is ambiguous when it comes back. -/
theorem ambiguous_of_comes_ipv6 {header : Ipv6Header} {label : header.flowLabel.toNat < 2 ^ 20}
    (h : (Chain.ipv6 header label next).Comes d addresses dropped) :
    (Chain.ipv6 header label next).Ambiguous := by
  obtain ⟨nh, compressed, bytes, hcompress, hback, -⟩ := h
  have hlabel := setWidth_of_label label
  rw [Chain.nextHeader, compress_ipv6] at hcompress
  obtain ⟨_, q, hpkt, hcompress⟩ := bind_eq_ok.mp hcompress
  cases hcompress
  rw [Chain.serialize, compressPacket_eq { header with nextHeader := next.nextHeader } hlabel]
    at hpkt
  obtain ⟨nh, t, hnext, hpkt⟩ := bind_eq_ok.mp hpkt
  cases hiphc : compressAddresses d.memory d.contexts d.now d.src d.dst
      (trafficFlow header.trafficClass header.flowLabel)
      (if nh then none else some next.nextHeader) (hlim header.hopLimit) header.source
      header.destination with
  | none =>
    rw [hiphc] at hpkt
    cases hpkt
  | some iphc =>
    rw [hiphc] at hpkt
    simp only [SixLowPanIphc.add] at hpkt
    split at hpkt
    · cases hpkt
    cases hpkt
    obtain ⟨e, -, hiphc⟩ := Option.bind_eq_some_iff.mp hiphc
    obtain ⟨f, -, hiphc⟩ := Option.bind_eq_some_iff.mp hiphc
    cases hiphc
    obtain ⟨htf, hnh, hhlim⟩ := iphc_format_spec _ _ _ (eid_of_decompress_ipv6 hback)
    refine ⟨trafficClass_of_tfBits htf rfl, hopLimit_of_hlimBits hhlim rfl, ?_⟩
    by_contra hplain
    rw [compressNext_eq, compressNextStep, if_neg hplain] at hnext
    cases hnext
    cases hnh

end OneHeader

/-! ## 6. Whole chains -/

namespace Chain

variable {d : Device} {addresses : Ipv6Address × Ipv6Address}

theorem comes_of_restorable {c : Chain} (h : c.Restorable) : c.Comes d addresses false := by
  induction c with
  | payload nextHeader plain bytes =>
    refine comes_of_not_compressible (decide_eq_false fun hmem => plain ?_)
    simp only [List.mem_cons, List.not_mem_nil, or_false] at hmem ⊢
    tauto
  | udp header bytes => exact comes_udp header bytes
  | hopByHop length options next ih =>
    rcases lt_or_ge (getLength length) 0xff with hshort | hlong
    · exact (comes_hopByHop_iff hshort).mpr ⟨rfl, false, ih (h.resolve_left (not_le.mpr hshort))⟩
    · exact comes_of_long (e := .hopByHop) rfl (reads_options options next.nextHeader) hlong rfl rfl
  | routing length typeRouting segmentsLeft data next ih =>
    have hread := reads_routing next.nextHeader length typeRouting segmentsLeft
    exact comes_of_long (e := .routing) rfl hread h rfl rfl
  | fragmentation offset identification next ih =>
    exact comes_fragmentation_iff.mpr ⟨rfl, false, ih h⟩
  | destination length options next ih => exact comes_of_not_compressible rfl
  | ipv6 header label next ih => exact absurd h id

theorem restorable_of_comes {c : Chain} (hplain : ¬c.Ambiguous) (h : c.Comes d addresses dropped) :
    c.Restorable := by
  induction c generalizing dropped with
  | payload nextHeader plain bytes => trivial
  | udp header bytes => trivial
  | hopByHop length options next ih =>
    rcases lt_or_ge (getLength length) 0xff with hshort | hlong
    · obtain ⟨-, dropped', hnext⟩ := (comes_hopByHop_iff hshort).mp h
      exact .inr (ih (fun hnext => hplain ⟨hshort, hnext⟩) hnext)
    · exact .inl hlong
  | routing length typeRouting segmentsLeft data next ih =>
    rcases lt_or_ge (getLength length) 0xff with hshort | hlong
    · exact absurd h (not_comes_routing hshort)
    · exact hlong
  | fragmentation offset identification next ih =>
    obtain ⟨-, dropped', hnext⟩ := comes_fragmentation_iff.mp h
    exact ih hplain hnext
  | destination length options next ih => trivial
  | ipv6 header label next ih => exact absurd (ambiguous_of_comes_ipv6 h) hplain

end Chain

/-! ## 7. Whole packets -/

/-- An address that is sent as it is. -/
def sentInline (a : Ipv6Address) : Encoding where
  stateful := false
  mode := .inline
  inlinePart := a.part 0 16

/-- The packet comes back, but for the lengths and the checksum that are made anew. -/
def PacketKept (d : Device) (ip : Ipv6Header) (c : Chain) : Prop :=
  ∃ compressed payloadLength length checksum,
    compressPacket d ({ ip with nextHeader := c.nextHeader }.serialize ++ c.serialize) =
      .ok ((), compressed) ∧
    decompressPacket d compressed =
      .ok (false, { ip with nextHeader := c.nextHeader, payloadLength }.serialize ++
        (c.withUdp length checksum).serialize)

theorem hlim_restore (hopLimit : Byte) : (hlim hopLimit).restore = hopLimit := by
  rw [hlim]
  split
  · next h => exact h.symm
  · split
    · next h => exact h.symm
    · split
      · next h => exact h.symm
      · rfl

/-- The flow label that comes back. -/
def restoredLabel (trafficClass : Byte) (flowLabel : BitVec 20) : BitVec 20 :=
  if trafficClass = 0 then flowLabel else flowLabel &&& 0xfff#20

theorem restoredLabel_eq_iff (trafficClass : Byte) (flowLabel : BitVec 20) :
    restoredLabel trafficClass flowLabel = flowLabel ↔
      trafficClass = 0 ∨ flowLabel.toNat < 4096 := by
  rw [restoredLabel]
  split
  · next hzero => exact iff_of_true rfl (.inl hzero)
  · next hne =>
    have hmask : (0xfff#20).toNat = 2 ^ 12 - 1 := rfl
    rw [or_iff_right hne, toNat_eq, toNat_and, hmask, Nat.and_two_pow_sub_one_eq_mod]
    omega

theorem trafficClass_halves : ∀ trafficClass : Byte,
    trafficClass.extractLsb' 6 2 ++ trafficClass.extractLsb' 0 6 = trafficClass := by
  decide

/-- The traffic class comes back, and twelve bits of the flow label when neither is zero. -/
theorem trafficFlow_restore (trafficClass : Byte) (flowLabel : BitVec 20) :
    (trafficFlow trafficClass (flowLabel.setWidth 32)).restore =
      (trafficClass, (restoredLabel trafficClass flowLabel).setWidth 32) := by
  have hlabel := flowLabel.isLt
  have hzero : flowLabel.setWidth 32 = 0 ↔ flowLabel = 0 := by
    rw [toNat_eq, toNat_eq, toNat_setWidth, mod_eq_of_lt (hlabel.trans (by decide))]
    exact Iff.rfl
  rw [trafficFlow, restoredLabel]
  split
  · next h =>
    rw [if_pos h.2, hzero.mp h.1, h.2]
    rfl
  · split
    · next h =>
      rw [if_neg h.2, TrafficFlow.restore, trafficClass_halves]
      refine Prod.ext rfl (eq_of_toNat_eq ?_)
      have hmask : (0xfff#32).toNat = 2 ^ 12 - 1 := rfl
      have hmask' : (0xfff#20).toNat = 2 ^ 12 - 1 := rfl
      simp only [toNat_and, toNat_setWidth, hmask, hmask', Nat.and_two_pow_sub_one_eq_mod]
      omega
    · split
      · next h =>
        rw [if_neg h.2, TrafficFlow.restore, trafficClass_halves, hzero.mp h.1]
        rfl
      · next hfirst hsecond hthird =>
        have hclass : trafficClass = 0 := by
          by_contra hne
          exact hsecond ⟨fun hfl => hthird ⟨hfl, hne⟩, hne⟩
        rw [if_pos hclass, hclass, TrafficFlow.restore]
        refine Prod.ext rfl (eq_of_toNat_eq ?_)
        simp only [toNat_setWidth]
        omega

section Packet

variable {d : Device} {ip : Ipv6Header} {c : Chain}

/-- What is sent of a packet whose addresses are sent as they are. -/
def iphcOf (ip : Ipv6Header) (nextHeader : Option Byte) : SixLowPanIphc :=
  .withAddresses (trafficFlow ip.trafficClass ip.flowLabel) nextHeader (hlim ip.hopLimit)
    ip.destination.IsMulticast (sentInline ip.source) (sentInline ip.destination)

theorem sized_iphcOf (ip : Ipv6Header) (o : Option Byte) : (iphcOf ip o).Sized :=
  ⟨ip.source.length_part (by decide), ip.destination.length_part (by decide)⟩

theorem counted_iphcOf (ip : Ipv6Header) :
    SixLowPanIphc.dstSerializedSize ip.destination.IsMulticast false .inline =
      dstSize ip.destination.IsMulticast .inline := by
  cases decide ip.destination.IsMulticast <;> rfl

theorem compressPacket_inline (ip : Ipv6Header) (hlabel : ip.flowLabel = flowLabel.setWidth 32)
    (hsrc : compressSource d.contexts d.now d.src ip.source = some (sentInline ip.source))
    (hdst : compressDestination d.memory d.contexts d.now d.dst ip.destination =
      some (sentInline ip.destination)) (packet : List Byte) :
    compressPacket d (ip.serialize ++ packet) = (do
      let nh ← compressNext d ip.nextHeader
      fun packet => .ok ((),
        (iphcOf ip (if nh then none else some ip.nextHeader)).serialize ++ packet) :
          Parser Unit) packet := by
  rw [compressPacket_eq ip hlabel]
  have haddresses (o : Option Byte) : compressAddresses d.memory d.contexts d.now d.src d.dst
      (trafficFlow ip.trafficClass ip.flowLabel) o (hlim ip.hopLimit) ip.source ip.destination =
      some (iphcOf ip o) := by
    rw [compressAddresses, hsrc, hdst]
    rfl
  refine congrFun (congrArg (compressNext d ip.nextHeader >>= ·) (funext fun nh => ?_)) packet
  rw [haddresses]
  exact funext (SixLowPanIphc.add_eq (sized_iphcOf ip _) (counted_iphcOf ip))

theorem decompressPacket_eq (o : Option Byte) (packet : List Byte) :
    decompressPacket d ((iphcOf ip o).serialize ++ packet) = (do
      let (nextHeader, dropped) ← decompressNext d (decompressLowPanNhc d)
        (ip.source, ip.destination) o
      if dropped then return true
      else do
        let payloadLength ← left
        addHeader (Ipv6Header.serialize {
          ip with
          trafficClass := (trafficFlow ip.trafficClass ip.flowLabel).restore.1
          flowLabel := (trafficFlow ip.trafficClass ip.flowLabel).restore.2
          payloadLength := ofNat 16 payloadLength
          nextHeader })
        return false : Parser Bool) packet := by
  have hremove := SixLowPanIphc.remove_serialize (sized_iphcOf ip o) (counted_iphcOf ip) packet
  have haddresses : decompressAddresses d.contexts d.now d.src d.dst (iphcOf ip o) =
      .ok (some (ip.source, ip.destination)) := by
    refine decompressAddresses_iff.mpr ⟨?_, ?_⟩
    · exact congrArg some (ofPart_zero ip.source)
    · rw [decompressDestination]
      cases decide ip.destination.IsMulticast with
      | true | false => exact congrArg (fun a => Except.ok (some a)) (ofPart_zero ip.destination)
  rw [decompressPacket, decompressLowPanIphc, bind_apply, hremove]
  show (match decompressAddresses d.contexts d.now d.src d.dst (iphcOf ip o) with
    | .error failure => _
    | .ok none => _
    | .ok (some (source, destination)) => _ : Parser Bool) packet = _
  rw [haddresses]
  rw [← hlim_restore ip.hopLimit]
  rfl

theorem packetKept_iff (flowLabel : BitVec 20) (hlabel : ip.flowLabel = flowLabel.setWidth 32)
    (hsrc : compressSource d.contexts d.now d.src ip.source = some (sentInline ip.source))
    (hdst : compressDestination d.memory d.contexts d.now d.dst ip.destination =
      some (sentInline ip.destination)) :
    PacketKept d ip c ↔ (ip.trafficClass = 0 ∨ flowLabel.toNat < 4096) ∧
      c.Comes d (ip.source, ip.destination) false := by
  have hcompress := compressPacket_inline { ip with nextHeader := c.nextHeader } hlabel hsrc hdst
    c.serialize
  have hrestore := trafficFlow_restore ip.trafficClass flowLabel
  rw [← hlabel] at hrestore
  rw [PacketKept, hcompress, ← restoredLabel_eq_iff]
  constructor
  · rintro ⟨compressed, payloadLength, length, checksum, hsent, hback⟩
    obtain ⟨nh, q, hnext, hsent⟩ := bind_eq_ok.mp hsent
    cases hsent
    rw [decompressPacket_eq] at hback
    obtain ⟨⟨nextHeader, dropped⟩, r, hnext', hback⟩ := bind_eq_ok.mp hback
    cases dropped with
    | true => cases hback
    | false =>
      dsimp only at hback
      rw [hrestore] at hback
      -- both headers are read back from the bytes, which are the same
      have hbytes := congrArg Prod.snd (Except.ok.inj hback)
      have hread := reads_ipv6 (h := { ip with
        trafficClass := ip.trafficClass
        flowLabel := (restoredLabel ip.trafficClass flowLabel).setWidth 32
        payloadLength := ofNat 16 r.length
        nextHeader }) rfl r
      have hread' := reads_ipv6 (h := { ip with nextHeader := c.nextHeader, payloadLength }) hlabel
        (c.withUdp length checksum).serialize
      have hboth := hread.symm.trans ((congrArg Ipv6Header.deserialize hbytes).trans hread')
      obtain ⟨hheader, hrest⟩ := Prod.mk.inj (Except.ok.inj hboth)
      have hnextHeader : nextHeader = c.nextHeader := congrArg Ipv6Header.nextHeader hheader
      have hfl : (restoredLabel ip.trafficClass flowLabel).setWidth 32 = ip.flowLabel :=
        congrArg Ipv6Header.flowLabel hheader
      refine ⟨?_, nh, q, r, hnext, ?_, length, checksum, hrest⟩
      · have hsame := congrArg (BitVec.setWidth 20) (hfl.trans hlabel)
        rwa [BitVec.setWidth_setWidth_of_le _ (by decide), setWidth_eq,
          BitVec.setWidth_setWidth_of_le _ (by decide), setWidth_eq] at hsame
      · rw [hnextHeader] at hnext'
        exact hnext'
  · rintro ⟨hkept, nh, compressed, bytes, hnext, hnext', length, checksum, rfl⟩
    refine ⟨_, ofNat 16 (c.withUdp length checksum).serialize.length, length, checksum,
      bind_eq_ok.mpr ⟨nh, compressed, hnext, rfl⟩, ?_⟩
    rw [decompressPacket_eq]
    refine bind_eq_ok.mpr ⟨(c.nextHeader, false), _, hnext', ?_⟩
    dsimp only
    rw [hrestore, hkept, ← hlabel]
    rfl

end Packet

def sampleDevice : Device where
  contexts := fun _ => none
  now := 0
  src := .mac16 ![0, 5]
  dst := .mac16 ![0, 6]
  memory := fun _ => 0
  omitUdpChecksum := false
  checksumEnabled := false

/-- A header from `2001:db8::1` to `2001:db8::2`. -/
def sampleHeader (trafficClass : Byte) (flowLabel : BitVec 20) : Ipv6Header where
  trafficClass := trafficClass
  flowLabel := flowLabel.setWidth 32
  payloadLength := 0
  nextHeader := 59
  hopLimit := 7
  source := Ipv6Address.ofPart 0 [0x20, 0x01, 0x0d, 0xb8, 0, 0, 0, 0, 0, 0, 0, 0, 0, 0, 0, 1]
  destination := Ipv6Address.ofPart 0 [0x20, 0x01, 0x0d, 0xb8, 0, 0, 0, 0, 0, 0, 0, 0, 0, 0, 0, 2]

end MoeJit.SixLowPan
