import MoeJit.Lib.SizedReader

/-!
# The IPHC header of 6LoWPAN

Two bytes say which of the fields of an IPv6 header follow. A header is read back from what was
written of it (`reads_serialize`). The size that is announced is that of what is written but for two
combinations of an inline address and a context, one of which is in use: sixteen bytes of a multicast
address are written where six are counted. The other ten take the place of what follows, or are an
assertion where the packet ends before.
-/

namespace MoeJit.SixLowPan

open Bytes ByteReader SizedReader

inductive Failure
  /-- A read past the end. -/
  | invalid
  /-- An assertion or an abort. -/
  | aborted
  deriving DecidableEq

instance : EndOfInput Failure := ⟨.invalid⟩

abbrev Parser := Reader Failure

/-! ## 1. Model -/

/-- `HeaderCompression_e`. -/
inductive HeaderCompression
  | inline
  | compr64
  | compr16
  | compr0
  deriving DecidableEq

/-- `TrafficClassFlowLabel_e` with the fields that are sent. -/
inductive TrafficFlow
  | full (ecn : BitVec 2) (dscp : BitVec 6) (flowLabel : BitVec 24)
  | dscpElided (ecn : BitVec 2) (flowLabel : BitVec 22)
  | flElided (ecn : BitVec 2) (dscp : BitVec 6)
  | elided
  deriving DecidableEq

/-- `Hlim_e`. -/
inductive Hlim
  | inline (hopLimit : Byte)
  | compr1
  | compr64
  | compr255
  deriving DecidableEq

structure SixLowPanIphc where
  tf : TrafficFlow
  /-- The next header is sent when it is not compressed. -/
  nextHeader : Option Byte
  hlim : Hlim
  /-- The context ids, when they are sent. -/
  srcdstContextId : Option Byte := none
  sac : Bool := false
  sam : HeaderCompression := .inline
  m : Bool := false
  dac : Bool := false
  dam : HeaderCompression := .inline
  srcInlinePart : List Byte
  dstInlinePart : List Byte
  deriving DecidableEq

def HeaderCompression.bits : HeaderCompression → BitVec 2
  | inline => 0
  | compr64 => 1
  | compr16 => 2
  | compr0 => 3

def HeaderCompression.ofBits (x : BitVec 2) : HeaderCompression :=
  if x = 0 then inline else if x = 1 then compr64 else if x = 2 then compr16 else compr0

namespace SixLowPanIphc

def tfBits (h : SixLowPanIphc) : BitVec 2 :=
  match h.tf with
  | .full _ _ _ => 0
  | .dscpElided _ _ => 1
  | .flElided _ _ => 2
  | .elided => 3

def hlimBits (h : SixLowPanIphc) : BitVec 2 :=
  match h.hlim with
  | .inline _ => 0
  | .compr1 => 1
  | .compr64 => 2
  | .compr255 => 3

/-- The first byte of `m_baseFormat`: `011`, TF, NH and HLIM. -/
def formatHigh (tf : BitVec 2) (nh : Bool) (hlim : BitVec 2) : Byte :=
  0x60 ||| (tf.setWidth 8 <<< 3) ||| (if nh then 0x04 else 0) ||| hlim.setWidth 8

/-- The second byte of `m_baseFormat`: CID, SAC, SAM, M, DAC and DAM. -/
def formatLow (cid sac : Bool) (sam : BitVec 2) (m dac : Bool) (dam : BitVec 2) : Byte :=
  (if cid then 0x80 else 0) ||| (if sac then 0x40 else 0) ||| (sam.setWidth 8 <<< 4) |||
    (if m then 0x08 else 0) ||| (if dac then 0x04 else 0) ||| dam.setWidth 8

def tfBytes (h : SixLowPanIphc) : List Byte :=
  match h.tf with
  | .full ecn dscp flowLabel => (ecn ++ dscp) :: put (k := 3) flowLabel
  | .dscpElided ecn flowLabel => put (k := 3) (ecn ++ flowLabel)
  | .flElided ecn dscp => [ecn ++ dscp]
  | .elided => []

def hlimBytes (h : SixLowPanIphc) : List Byte :=
  match h.hlim with
  | .inline hopLimit => [hopLimit]
  | _ => []

/-- How many bytes of the source address are written. -/
def srcSize (sac : Bool) : HeaderCompression → Nat
  | .inline => if sac then 0 else 16
  | .compr64 => 8
  | .compr16 => 2
  | .compr0 => 0

/-- How many bytes of the destination address are written. -/
def dstSize (m : Bool) : HeaderCompression → Nat
  | .inline => 16
  | .compr64 => if m then 6 else 8
  | .compr16 => if m then 4 else 2
  | .compr0 => if m then 1 else 0

/-- How many bytes of the destination address are counted. -/
def dstSerializedSize (m dac : Bool) (dam : HeaderCompression) : Nat :=
  if m then
    match dam with
    | .inline => if dac then 6 else 16
    | .compr64 => if dac then 0 else 6
    | .compr16 => if dac then 0 else 4
    | .compr0 => if dac then 0 else 1
  else
    match dam with
    | .inline => if dac then 0 else 16
    | .compr64 => 8
    | .compr16 => 2
    | .compr0 => 0

def getSerializedSize (h : SixLowPanIphc) : Nat :=
  2 + h.srcdstContextId.toList.length + h.tfBytes.length + h.nextHeader.toList.length +
    h.hlimBytes.length + srcSize h.sac h.sam + dstSerializedSize h.m h.dac h.dam

def serialize (h : SixLowPanIphc) : List Byte :=
  [formatHigh h.tfBits h.nextHeader.isNone h.hlimBits] ++
    ([formatLow h.srcdstContextId.isSome h.sac h.sam.bits h.m h.dac h.dam.bits] ++
      (h.srcdstContextId.toList ++ (h.tfBytes ++ (h.nextHeader.toList ++ (h.hlimBytes ++
        (h.srcInlinePart ++ h.dstInlinePart))))))

def readTf (tf : BitVec 2) : Parser TrafficFlow :=
  if tf = 0 then do
    let temp ← byte
    let flowLabel ← get 3
    return .full (temp.extractLsb' 6 2) (temp.extractLsb' 0 6) flowLabel
  else if tf = 1 then do
    let temp ← get 3
    return .dscpElided (temp.extractLsb' 22 2) (temp.extractLsb' 0 22)
  else if tf = 2 then do
    let temp ← byte
    return .flElided (temp.extractLsb' 6 2) (temp.extractLsb' 0 6)
  else return .elided

def readHlim (hlim : BitVec 2) : Parser Hlim :=
  if hlim = 0 then do
    let hopLimit ← byte
    return .inline hopLimit
  else return if hlim = 1 then .compr1 else if hlim = 2 then .compr64 else .compr255

def deserialize : Parser SixLowPanIphc := do
  let high ← byte
  let low ← byte
  let sac := low.getLsbD 6
  let sam := HeaderCompression.ofBits (low.extractLsb' 4 2)
  let m := low.getLsbD 3
  let dam := HeaderCompression.ofBits (low.extractLsb' 0 2)
  let srcdstContextId ← readIf (low.getLsbD 7) byte
  let tf ← readTf (high.extractLsb' 3 2)
  let nextHeader ← readIf (!high.getLsbD 2) byte
  let hlim ← readHlim (high.extractLsb' 0 2)
  let srcInlinePart ← raw (srcSize sac sam)
  let dstInlinePart ← raw (dstSize m dam)
  return { tf, nextHeader, hlim, srcdstContextId, sac, sam, m, dac := low.getLsbD 2, dam
           srcInlinePart, dstInlinePart }

/-- How many bytes are written and not counted. -/
def overrun (h : SixLowPanIphc) : Nat := h.serialize.length - h.getSerializedSize

/-- `AddHeader`, which makes room for the bytes that are counted. -/
def add (h : SixLowPanIphc) : Parser Unit := fun packet =>
  if packet.length < h.overrun then .error .aborted
  else .ok ((), h.serialize ++ packet.drop h.overrun)

/-- `RemoveHeader`. -/
def remove : Parser SixLowPanIphc := fun packet => do
  let (h, _) ← deserialize packet
  return (h, packet.drop h.getSerializedSize)

/-! ## 2. Headers are read back -/

/-- The inline parts have as many bytes as are written of them. -/
structure Sized (h : SixLowPanIphc) : Prop where
  src : h.srcInlinePart.length = srcSize h.sac h.sam
  dst : h.dstInlinePart.length = dstSize h.m h.dam

theorem ofBits_bits (c : HeaderCompression) : HeaderCompression.ofBits c.bits = c := by
  cases c <;> decide

theorem formatHigh_spec : ∀ (tf : BitVec 2) (nh : Bool) (hlim : BitVec 2),
    (formatHigh tf nh hlim).extractLsb' 3 2 = tf ∧ (formatHigh tf nh hlim).getLsbD 2 = nh ∧
      (formatHigh tf nh hlim).extractLsb' 0 2 = hlim := by
  decide

theorem formatLow_spec : ∀ (cid sac : Bool) (sam : BitVec 2) (m dac : Bool) (dam : BitVec 2),
    let low := formatLow cid sac sam m dac dam
    low.getLsbD 7 = cid ∧ low.getLsbD 6 = sac ∧ low.extractLsb' 4 2 = sam ∧ low.getLsbD 3 = m ∧
      low.getLsbD 2 = dac ∧ low.extractLsb' 0 2 = dam := by
  decide

theorem reads_tf (h : SixLowPanIphc) : Reads (readTf h.tfBits) h.tfBytes h.tf := by
  rw [tfBits, tfBytes]
  cases h.tf with
  | full ecn dscp flowLabel =>
    have hecn : (ecn ++ dscp : Byte).extractLsb' 6 2 = ecn := BitVec.extractLsb'_append_eq_left
    have hdscp : (ecn ++ dscp : Byte).extractLsb' 0 6 = dscp := BitVec.extractLsb'_append_eq_right
    refine (reads_byte (ecn ++ dscp)).bind ?_
    rw [hecn, hdscp]
    exact (reads_get (k := 3) flowLabel).map
  | dscpElided ecn flowLabel =>
    have hecn : (ecn ++ flowLabel : BitVec 24).extractLsb' 22 2 = ecn :=
      BitVec.extractLsb'_append_eq_left
    have hflow : (ecn ++ flowLabel : BitVec 24).extractLsb' 0 22 = flowLabel :=
      BitVec.extractLsb'_append_eq_right
    have hread := (reads_get (k := 3) (ecn ++ flowLabel) (ε := Failure)).map (f := fun temp =>
      TrafficFlow.dscpElided (temp.extractLsb' 22 2) (temp.extractLsb' 0 22))
    rw [hecn, hflow] at hread
    exact hread
  | flElided ecn dscp =>
    have hecn : (ecn ++ dscp : Byte).extractLsb' 6 2 = ecn := BitVec.extractLsb'_append_eq_left
    have hdscp : (ecn ++ dscp : Byte).extractLsb' 0 6 = dscp := BitVec.extractLsb'_append_eq_right
    have hread := (reads_byte (ecn ++ dscp) (ε := Failure)).map (f := fun temp =>
      TrafficFlow.flElided (temp.extractLsb' 6 2) (temp.extractLsb' 0 6))
    rw [hecn, hdscp] at hread
    exact hread
  | elided => exact reads_pure _

theorem reads_hlim (h : SixLowPanIphc) : Reads (readHlim h.hlimBits) h.hlimBytes h.hlim := by
  rw [hlimBits, hlimBytes]
  cases h.hlim with
  | inline hopLimit => exact (reads_byte hopLimit).map
  | compr1 | compr64 | compr255 => exact reads_pure _

theorem reads_optional (o : Option Byte) :
    Reads (readIf o.isSome (byte : Parser Byte)) o.toList o := by
  have h := reads_readIf (x := (byte : Parser Byte)) (fun b => [b]) (o := o) fun b _ => reads_byte b
  rwa [List.flatMap_singleton'] at h

variable {h : SixLowPanIphc}

theorem reads_serialize (hsized : h.Sized) : Reads deserialize h.serialize h := by
  obtain ⟨htf, hnh, hhlim⟩ := formatHigh_spec h.tfBits h.nextHeader.isNone h.hlimBits
  obtain ⟨hcid, hsac, hsam, hm, hdac, hdam⟩ := formatLow_spec h.srcdstContextId.isSome h.sac
    h.sam.bits h.m h.dac h.dam.bits
  have hnone : (!h.nextHeader.isNone) = h.nextHeader.isSome := by
    cases h.nextHeader <;> rfl
  have hsrc : Reads (raw (srcSize h.sac h.sam) : Parser _) h.srcInlinePart h.srcInlinePart :=
    hsized.src ▸ reads_raw h.srcInlinePart
  have hdst : Reads (raw (dstSize h.m h.dam) : Parser _) h.dstInlinePart h.dstInlinePart :=
    hsized.dst ▸ reads_raw h.dstInlinePart
  refine (reads_byte _).bind ((reads_byte _).bind ?_)
  simp only [htf, hnh, hhlim, hcid, hsac, hsam, hm, hdac, hdam, hnone, ofBits_bits]
  exact (reads_optional _).bind (h.reads_tf.bind ((reads_optional _).bind (h.reads_hlim.bind
    (hsrc.bind hdst.map))))

theorem overrun_eq (hsized : h.Sized) :
    h.overrun = dstSize h.m h.dam - dstSerializedSize h.m h.dac h.dam := by
  have hsrc := hsized.src
  have hdst := hsized.dst
  simp only [overrun, serialize, getSerializedSize, List.length_append, List.length_singleton]
  omega

/-- A header can be added when there are bytes to write over, and is removed then. -/
theorem remove_add_iff (hsized : h.Sized) (packet : List Byte) (P : SixLowPanIphc → Prop) :
    (∃ sent h' rest, h.add packet = .ok ((), sent) ∧ remove sent = .ok (h', rest) ∧ P h') ↔
      dstSize h.m h.dam - dstSerializedSize h.m h.dac h.dam ≤ packet.length ∧ P h := by
  rw [← overrun_eq hsized]
  have hremove : ∃ rest, remove (h.serialize ++ packet.drop h.overrun) = .ok (h, rest) := by
    refine ⟨(h.serialize ++ packet.drop h.overrun).drop h.getSerializedSize, ?_⟩
    rw [remove, reads_serialize hsized]
    rfl
  obtain ⟨rest, hremove⟩ := hremove
  constructor
  · rintro ⟨sent, h', rest', hadd, hremove', hP⟩
    unfold add at hadd
    split at hadd
    case isTrue => cases hadd
    case isFalse hroom =>
      cases hadd
      cases hremove.symm.trans hremove'
      exact ⟨Nat.not_lt.mp hroom, hP⟩
  · rintro ⟨hroom, hP⟩
    exact ⟨_, h, rest, if_neg (Nat.not_lt.mpr hroom), hremove, hP⟩

section

variable (hsized : h.Sized) (hcounted : dstSerializedSize h.m h.dac h.dam = dstSize h.m h.dam)
  (packet : List Byte)
include hsized hcounted

theorem add_eq : h.add packet = .ok ((), h.serialize ++ packet) := by
  have hover := overrun_eq hsized
  rw [hcounted, Nat.sub_self] at hover
  rw [add, hover, if_neg (Nat.not_lt_zero _), List.drop_zero]

/-- The packet is as it was, when as many bytes are counted as are written. -/
theorem remove_serialize : remove (h.serialize ++ packet) = .ok (h, packet) := by
  have hsize : h.getSerializedSize = h.serialize.length := by
    have hsrc := hsized.src
    have hdst := hsized.dst
    simp only [serialize, getSerializedSize, List.length_append, List.length_singleton]
    omega
  rw [remove, reads_serialize hsized]
  show Except.ok (h, (h.serialize ++ packet).drop h.getSerializedSize) = _
  rw [hsize, List.drop_left]

end

end SixLowPanIphc

end MoeJit.SixLowPan
