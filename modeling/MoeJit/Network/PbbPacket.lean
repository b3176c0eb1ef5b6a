import MoeJit.Network.PbbAddressBlock

/-!
# Messages and packets of PacketBB

A message has its size in front, in 16 bits, and its address blocks are read up to it. The messages
of a packet are read up to the end. When no message is longer than its size can say, the packet is
read back with all its fields exactly when no TLV and no address block loses one
(`packet_round_trips_iff`). A TLV loses the flag for several values, which is written and never read.
-/

namespace MoeJit.PacketBB

open Bytes ByteReader SizedWriter SizedReader List
open BitVec (ofNat)

/-! ## 1. Model -/

structure PbbMessage (f : Family) where
  type : Byte
  originatorAddress : Option (Address f) := none
  hopLimit : Option Byte := none
  hopCount : Option Byte := none
  sequenceNumber : Option (BitVec 16) := none
  tlvs : List PbbTlv := []
  addressBlocks : List (PbbAddressBlock f) := []
  deriving DecidableEq

/-- `GetAddressLength` of a message, which is one less than the bytes of an address, with
`MHAS_ORIG`, `MHAS_HOP_LIMIT`, `MHAS_HOP_COUNT` and `MHAS_SEQ_NUM`. -/
def messageFlags (f : Family) (originator limit count sequenceNumber : Bool) : Byte :=
  (match f with
    | .ipv4 => 3
    | .ipv6 => 15) |||
    (if originator then 0x80 else 0) ||| (if limit then 0x40 else 0) |||
    (if count then 0x20 else 0) ||| (if sequenceNumber then 0x10 else 0)

namespace PbbMessage

variable {f : Family}

def flags (m : PbbMessage f) : Byte :=
  messageFlags f m.originatorAddress.isSome m.hopLimit.isSome m.hopCount.isSome
    m.sequenceNumber.isSome

/-- The size is added up in 32 bits. -/
def getSerializedSize (m : PbbMessage f) : Nat :=
  (4 + m.originatorAddress.toList.length * f.addressLength + m.hopLimit.toList.length +
    m.hopCount.toList.length + m.sequenceNumber.toList.length * 2 + blockSerializedSize m.tlvs +
    (m.addressBlocks.map PbbAddressBlock.getSerializedSize).sum) % 4294967296

/-- What is before the address blocks. -/
def front (m : PbbMessage f) (size : BitVec 16) : List Byte :=
  [m.type] ++ ([m.flags] ++ (put (k := 2) size ++
    (m.originatorAddress.toList.flatMap Subtype.val ++ (m.hopLimit.toList ++ (m.hopCount.toList ++
      (m.sequenceNumber.toList.flatMap (put (k := 2)) ++ serializeBlock m.tlvs))))))

def blocksImage (m : PbbMessage f) : Image := m.addressBlocks.flatMap PbbAddressBlock.serialize

/-- The distance from the front, for which room is left at first. -/
def size (m : PbbMessage f) : Nat := (m.front 0).length + m.blocksImage.length

/-- The size is cut to 16 bits. -/
def serialize (m : PbbMessage f) : Image :=
  block (m.front (BitVec.ofNat 16 m.size)) ++ m.blocksImage

def readOriginatorAddress (f : Family) : Parser (Address f) :=
  PbbAddressBlock.readAddress f [] []

/-- The size and what is before the address blocks. -/
def readFields (f : Family) : Parser (PbbMessage f × Nat) := do
  let type ← byte
  let flags ← byte
  let size ← get 2
  let originatorAddress ← readIf (flags &&& 0x80 ≠ 0) (readOriginatorAddress f)
  let hopLimit ← readIf (flags &&& 0x40 ≠ 0) byte
  let hopCount ← readIf (flags &&& 0x20 ≠ 0) byte
  let sequenceNumber ← readIf (flags &&& 0x10 ≠ 0) (get 2)
  let tlvs ← deserializeBlock
  return ({ type, originatorAddress, hopLimit, hopCount, sequenceNumber, tlvs }, size.toNat)

def deserialize (f : Family) : Parser (PbbMessage f) := do
  let ((m, size), distance) ← measured (readFields f)
  if size > 0 then do
    let addressBlocks ← upTo (PbbAddressBlock.deserialize f) size (size - distance)
    return { m with addressBlocks }
  else return m

end PbbMessage

/-- A message of one of the families. -/
abbrev AnyMessage := Σ f, PbbMessage f

namespace AnyMessage

def serialize (m : AnyMessage) : Image := m.2.serialize

def getSerializedSize (m : AnyMessage) : Nat := m.2.getSerializedSize

/-- The family that `DeserializeMessage` makes a message of. -/
def familyOf (addrlen : Byte) : Option Family :=
  if addrlen = 0 ∨ addrlen = 3 then some .ipv4 else if addrlen = 15 then some .ipv6 else none

/-- `DeserializeMessage`. -/
def deserialize : Parser (Option AnyMessage) := do
  let addrlen ← lookAhead (do
    let _ ← byte
    byte)
  match familyOf (addrlen &&& 0xf) with
  | none => return none
  | some f => do
    let m ← PbbMessage.deserialize f
    return some ⟨f, m⟩

end AnyMessage

structure PbbPacket where
  version : Byte := 0
  sequenceNumber : Option (BitVec 16) := none
  tlvs : List PbbTlv := []
  messages : List AnyMessage := []
  deriving DecidableEq

/-- `VERSION`, `PHAS_SEQ_NUM` and `PHAS_TLV`. -/
def packetFlags (sequenceNumber tlv : Bool) : Byte :=
  ((0 : Byte) <<< 4) ||| (if sequenceNumber then 0x8 else 0) ||| (if tlv then 0x4 else 0)

namespace PbbPacket

/-- The size is added up in 32 bits. -/
def getSerializedSize (p : PbbPacket) : Nat :=
  (1 + p.sequenceNumber.toList.length * 2 +
    (if p.tlvs.isEmpty then 0 else blockSerializedSize p.tlvs) +
    (p.messages.map AnyMessage.getSerializedSize).sum) % 4294967296

def flags (p : PbbPacket) : Byte := packetFlags p.sequenceNumber.isSome !p.tlvs.isEmpty

def front (p : PbbPacket) : List Byte :=
  [p.flags] ++ (p.sequenceNumber.toList.flatMap (put (k := 2)) ++
    if p.tlvs.isEmpty then [] else serializeBlock p.tlvs)

def serialize (p : PbbPacket) : Image :=
  block p.front ++ p.messages.flatMap AnyMessage.serialize

def readTlvs (flags : Byte) : Parser (List PbbTlv) :=
  if flags &&& 0x4 ≠ 0 then deserializeBlock else return []

/-- What is before the messages. -/
def readFront : Parser (Byte × Option (BitVec 16) × List PbbTlv) := do
  let flags ← byte
  let sequenceNumber ← readIf (flags &&& 0x8 ≠ 0) (get 2)
  let tlvs ← readTlvs flags
  return (flags, sequenceNumber, tlvs)

/-- The version is not set when a message could not be made. -/
def deserialize : Parser PbbPacket := do
  let (flags, sequenceNumber, tlvs) ← readFront
  let rounds ← left
  let (messages, atEnd) ← untilEnd AnyMessage.deserialize rounds
  return { version := if atEnd then flags >>> 4 else 0, sequenceNumber, tlvs, messages }

end PbbPacket

/-! ## 2. Messages are read back -/

theorem messageFlags_spec (f : Family) : ∀ originator limit count sequenceNumber : Bool,
    let flags := messageFlags f originator limit count sequenceNumber
    decide (flags &&& 0x80 ≠ 0) = originator ∧ decide (flags &&& 0x40 ≠ 0) = limit ∧
      decide (flags &&& 0x20 ≠ 0) = count ∧ decide (flags &&& 0x10 ≠ 0) = sequenceNumber ∧
      AnyMessage.familyOf (flags &&& 0xf) = some f := by
  cases f <;> decide

theorem reads_optionalByte (o : Option Byte) :
    Reads (readIf o.isSome (byte : Parser Byte)) o.toList o := by
  have h := reads_readIf (x := (byte : Parser Byte)) (fun b => [b]) (o := o) fun b _ => reads_byte b
  rwa [flatMap_singleton'] at h

theorem reads_optionalWord (o : Option (BitVec 16)) :
    Reads (readIf o.isSome (get 2 : Parser _)) (o.toList.flatMap (put (k := 2))) o :=
  reads_readIf (put (k := 2)) fun x _ => reads_get (k := 2) x

theorem reads_tlvs {tlvs : List PbbTlv} (hkept : ∀ tlv ∈ tlvs, tlv.Kept)
    (hreaches : SizeReaches tlvs) : Reads deserializeBlock (serializeBlock tlvs) tlvs := by
  have hrecv : tlvs.map PbbTlv.received = tlvs := by
    rw [map_congr_left fun tlv htlv => (hkept tlv htlv).received_eq, map_id']
  have hload := loads_block (fun tlv htlv => (hkept tlv htlv).short) hreaches
  rw [hrecv] at hload
  exact reads_of_loads hload

variable {s t memory : List Byte}

namespace PbbMessage

variable {f : Family} {m : PbbMessage f}

/-- No field of the message is lost. -/
structure Kept (m : PbbMessage f) : Prop where
  tlvs : ∀ tlv ∈ m.tlvs, tlv.Kept
  addressBlocks : ∀ b ∈ m.addressBlocks, b.Kept

theorem length_front (m : PbbMessage f) (size : BitVec 16) :
    (m.front size).length = (m.front 0).length := by
  simp only [front, length_append, length_put]

theorem length_serialize (m : PbbMessage f) : m.serialize.length = m.size := by
  rw [serialize, length_append, length_block, length_front, size]

theorem length_tlvs_lt (hlt : m.size < 65536) :
    (m.tlvs.flatMap PbbTlv.serialize).length < 65536 := by
  rw [size, front] at hlt
  simp only [length_append, length_serializeBlock] at hlt
  omega

theorem reads_fields (hkept : ∀ tlv ∈ m.tlvs, tlv.Kept) (hreaches : SizeReaches m.tlvs)
    (size : BitVec 16) :
    Reads (readFields f) (m.front size) ({ m with addressBlocks := [] }, size.toNat) := by
  obtain ⟨horiginator, hlimit, hcount, hnumber, -⟩ := messageFlags_spec f
    m.originatorAddress.isSome m.hopLimit.isSome m.hopCount.isSome m.sequenceNumber.isSome
  have hreadOriginator := reads_readIf (x := readOriginatorAddress f) Subtype.val
    (o := m.originatorAddress) fun address _ => PbbAddressBlock.reads_wholeAddress address
  have hreadLimit := reads_optionalByte m.hopLimit
  have hreadCount := reads_optionalByte m.hopCount
  have hreadNumber := reads_optionalWord m.sequenceNumber
  rw [← horiginator] at hreadOriginator
  rw [← hlimit] at hreadLimit
  rw [← hcount] at hreadCount
  rw [← hnumber] at hreadNumber
  exact (reads_byte m.type).bind ((reads_byte m.flags).bind ((reads_get (k := 2) size).bind
    (hreadOriginator.bind (hreadLimit.bind (hreadCount.bind (hreadNumber.bind
      (reads_tlvs hkept hreaches).map))))))

theorem length_block_pos (b : PbbAddressBlock f) : 0 < b.serialize.length := by
  rw [PbbAddressBlock.serialize, length_append, length_block, length_serializeBlock]
  omega

theorem four_le_length_front (m : PbbMessage f) (size : BitVec 16) : 4 ≤ (m.front size).length := by
  simp only [front, length_append, length_singleton, length_put]
  omega

theorem toNat_size (hlt : m.size < 65536) : (ofNat 16 m.size).toNat = m.size := by
  rw [BitVec.toNat_ofNat, Nat.mod_eq_of_lt hlt]

/-- The size is more than that of what is before the address blocks, by what they have. -/
theorem size_sub_front (m : PbbMessage f) (size : BitVec 16) :
    m.size - (m.front size).length = m.blocksImage.length := by
  rw [length_front, PbbMessage.size, Nat.add_sub_cancel_left]

/-- A message whose size is not cut is read back when none of its parts loses a field. -/
theorem Kept.loads (h : m.Kept) (hlt : m.size < 65536) : Loads (deserialize f) m.serialize m := by
  have hfields := reads_fields h.tlvs (sizeReaches_of_lt (length_tlvs_lt hlt)) (ofNat 16 m.size)
  rw [toNat_size hlt] at hfields
  have hfront := four_le_length_front m (ofNat 16 m.size)
  have hblocks : Loads (upTo (PbbAddressBlock.deserialize f) m.size
      (m.size - (m.front (ofNat 16 m.size)).length)) m.blocksImage m.addressBlocks := by
    rw [size_sub_front]
    have hload : Loads (upTo (PbbAddressBlock.deserialize f) m.size m.blocksImage.length)
        m.blocksImage (m.addressBlocks.map id) :=
      loads_upTo (fun b hb => (h.addressBlocks b hb).loads) (reaches_of_eq (fun b _ => length_block_pos b) rfl) (Nat.le_refl m.blocksImage.length)
      ((length_le_length_flatMap fun b _ => length_block_pos b).trans
        (Nat.le_add_left m.blocksImage.length (m.front 0).length))
    rwa [map_id] at hload
  refine (loads_measured (loads_of_reads hfields)).bind ?_
  have hpos : m.size > 0 := by
    rw [PbbMessage.size]
    have := four_le_length_front m 0
    omega
  rw [length_block]
  simp only [hpos, if_true]
  exact hblocks.map

theorem kept_of_readFields {r : PbbMessage f × Nat} (h : readFields f s = .ok (r, t)) :
    ∀ tlv ∈ r.1.tlvs, tlv.Kept := by
  obtain ⟨type, _, -, h⟩ := bind_eq_ok.mp h
  obtain ⟨flags, _, -, h⟩ := bind_eq_ok.mp h
  obtain ⟨size, _, -, h⟩ := bind_eq_ok.mp h
  obtain ⟨originator, _, -, h⟩ := bind_eq_ok.mp h
  obtain ⟨limit, _, -, h⟩ := bind_eq_ok.mp h
  obtain ⟨count, _, -, h⟩ := bind_eq_ok.mp h
  obtain ⟨number, _, -, h⟩ := bind_eq_ok.mp h
  obtain ⟨tlvs, _, htlvs, h⟩ := bind_eq_ok.mp h
  cases h
  exact kept_of_block htlvs

theorem kept_of_deserialize (hlt : m.size < 65536) (hfills : Fills m.serialize memory)
    (h : deserialize f (memory ++ s) = .ok (m, t)) : m.Kept := by
  obtain ⟨w, w', rfl, hw, hw'⟩ := fills_append hfills
  rw [fills_block hw, append_assoc] at h
  obtain ⟨⟨⟨m', size⟩, distance⟩, u, hmeasured, h⟩ := bind_eq_ok.mp h
  have hfields := of_measured hmeasured
  have hkept := kept_of_readFields hfields
  have hsame : m'.tlvs = m.tlvs := by
    simp only at h
    split at h
    · obtain ⟨blocks, _, -, h⟩ := bind_eq_ok.mp h
      cases h
      rfl
    · cases h
      rfl
  have htlvs : ∀ tlv ∈ m.tlvs, tlv.Kept := hsame ▸ hkept
  have hexact := loads_measured (loads_of_reads (reads_fields htlvs
    (sizeReaches_of_lt (length_tlvs_lt hlt)) (ofNat 16 m.size))) _ (fills_block_self _)
    (w' ++ s)
  rw [hmeasured, toNat_size hlt, length_block] at hexact
  cases hexact
  refine ⟨htlvs, ?_⟩
  simp only [size_sub_front] at h
  split at h
  · obtain ⟨blocks, _, hblocks, h⟩ := bind_eq_ok.mp h
    have hall : blocks = m.addressBlocks :=
      (congrArg (fun r => r.1.addressBlocks) (Except.ok.inj h))
    rw [hall] at hblocks
    exact (good_of_upTo (E := Eq) id PbbAddressBlock.Kept (fun b _ hb => hb.loads)
      (fun b _ memory s a t hm ha hab => PbbAddressBlock.kept_of_deserialize hm (hab ▸ ha))
      hw' hblocks (forall₂_same.mpr fun _ _ => rfl)).1
  · next hzero =>
    have := four_le_length_front m 0
    rw [PbbMessage.size] at hzero
    omega

theorem Kept.getSerializedSize (h : m.Kept) (hlt : m.size < 65536) :
    m.getSerializedSize = m.serialize.length := by
  have hblocks : (m.addressBlocks.map PbbAddressBlock.getSerializedSize).sum =
      m.blocksImage.length := by
    rw [blocksImage, length_flatMap, map_congr_left fun b hb =>
      (h.addressBlocks b hb).getSerializedSize]
  have htlvs := sum_getSerializedSize m.tlvs
  rw [openRanges_eq_zero.mpr fun tlv htlv => (h.tlvs tlv htlv).range, add_zero] at htlvs
  have hshort := length_tlvs_lt hlt
  have horiginator : (m.originatorAddress.toList.flatMap Subtype.val).length =
      m.originatorAddress.toList.length * f.addressLength := by
    cases m.originatorAddress with
    | none => exact (Nat.zero_mul _).symm
    | some address => simp [address.property]
  have hnumber : (m.sequenceNumber.toList.flatMap (put (k := 2))).length =
      m.sequenceNumber.toList.length * 2 := by
    cases m.sequenceNumber with
    | none => rfl
    | some x => rfl
  rw [length_serialize]
  rw [PbbMessage.size, front] at hlt ⊢
  simp only [length_append, length_singleton, length_put, length_serializeBlock,
    horiginator, hnumber] at hlt ⊢
  rw [PbbMessage.getSerializedSize, hblocks, blockSerializedSize, htlvs]
  omega

end PbbMessage

namespace AnyMessage

theorem deserialize_eq {m : AnyMessage} (hfills : Fills m.serialize memory) (s : List Byte) :
    deserialize (memory ++ s) =
      (do
        let x ← PbbMessage.deserialize m.1
        return some ⟨m.1, x⟩ : Parser (Option AnyMessage)) (memory ++ s) := by
  obtain ⟨w, w', rfl, hw, -⟩ := fills_append hfills
  obtain ⟨-, -, -, -, hfamily⟩ := messageFlags_spec m.1 m.2.originatorAddress.isSome
    m.2.hopLimit.isSome m.2.hopCount.isSome m.2.sequenceNumber.isSome
  obtain rfl := fills_block hw
  obtain ⟨rest, hrest⟩ : ∃ rest, m.2.front (ofNat 16 m.2.size) ++ w' ++ s =
      m.2.type :: m.2.flags :: rest := ⟨_, rfl⟩
  rw [hrest]
  show (match familyOf (m.2.flags &&& 0xf) with
    | none => (return none : Parser (Option AnyMessage))
    | some f => do
      let m ← PbbMessage.deserialize f
      return some ⟨f, m⟩) (m.2.type :: m.2.flags :: rest) = _
  rw [PbbMessage.flags, hfamily]

theorem loads {m : AnyMessage} (h : m.2.Kept) (hlt : m.2.size < 65536) :
    Loads deserialize m.serialize (some m) := by
  intro memory hfills s
  rw [deserialize_eq hfills]
  exact ((h.loads hlt).map (f := fun x => some (⟨m.1, x⟩ : AnyMessage))) memory hfills s

theorem kept_of_deserialize {m : AnyMessage} (hlt : m.2.size < 65536)
    (hfills : Fills m.serialize memory) (h : deserialize (memory ++ s) = .ok (some m, t)) :
    m.2.Kept := by
  rw [deserialize_eq hfills] at h
  obtain ⟨x, u, hx, h⟩ := bind_eq_ok.mp h
  obtain ⟨f, m⟩ := m
  cases Option.some.inj (congrArg Prod.fst (Except.ok.inj h))
  exact PbbMessage.kept_of_deserialize hlt hfills hx

end AnyMessage

/-! ## 3. Packets are read back -/

theorem packetFlags_spec : ∀ sequenceNumber tlv : Bool, let flags := packetFlags sequenceNumber tlv
    decide (flags &&& 0x8 ≠ 0) = sequenceNumber ∧ decide (flags &&& 0x4 ≠ 0) = tlv ∧
      flags >>> 4 = 0 := by
  decide

namespace PbbPacket

variable {p : PbbPacket}

/-- Each message has a size of 16 bits. -/
def ShortMessages (p : PbbPacket) : Prop := ∀ m ∈ p.messages, m.2.size < 65536

/-- No field of the packet is lost. -/
structure Kept (p : PbbPacket) : Prop where
  version : p.version = 0
  tlvs : ∀ tlv ∈ p.tlvs, tlv.Kept
  sizeReaches : SizeReaches p.tlvs
  messages : ∀ m ∈ p.messages, m.2.Kept
  size : p.serialize.length < 4294967296

/-- The packet is written to as many bytes as it says, and from these it is read back with all its
fields, and so written to the same bytes again. -/
def RoundTrips (p : PbbPacket) : Prop :=
  p.serialize.length = p.getSerializedSize ∧
    ∀ memory, Fills p.serialize memory → deserialize memory = .ok (p, [])

theorem reads_readTlvs (htlvs : ∀ tlv ∈ p.tlvs, tlv.Kept) (hreaches : SizeReaches p.tlvs) :
    Reads (readTlvs p.flags) (if p.tlvs.isEmpty then [] else serializeBlock p.tlvs) p.tlvs := by
  obtain ⟨-, hflag, -⟩ := packetFlags_spec p.sequenceNumber.isSome !p.tlvs.isEmpty
  rw [readTlvs]
  by_cases hempty : p.tlvs.isEmpty = true
  · rw [hempty] at hflag
    rw [if_pos hempty, if_neg (of_decide_eq_false (by rw [flags, hempty]; exact hflag)),
      List.isEmpty_iff.mp hempty]
    exact reads_pure []
  · rw [Bool.not_eq_true _ |>.mp hempty] at hflag
    rw [if_neg hempty, if_pos (of_decide_eq_true (by
      rw [flags, Bool.not_eq_true _ |>.mp hempty]; exact hflag))]
    exact reads_tlvs htlvs hreaches

theorem reads_sequenceNumber (p : PbbPacket) :
    Reads (readIf (p.flags &&& 0x8 ≠ 0) (get 2 : Parser _))
      (p.sequenceNumber.toList.flatMap (put (k := 2))) p.sequenceNumber := by
  obtain ⟨hflag, -, -⟩ := packetFlags_spec p.sequenceNumber.isSome !p.tlvs.isEmpty
  have hread := reads_optionalWord p.sequenceNumber
  rwa [← hflag] at hread

theorem reads_front (htlvs : ∀ tlv ∈ p.tlvs, tlv.Kept) (hreaches : SizeReaches p.tlvs) :
    Reads readFront p.front (p.flags, p.sequenceNumber, p.tlvs) :=
  (reads_byte p.flags).bind (p.reads_sequenceNumber.bind (reads_readTlvs htlvs hreaches).map)

theorem length_message_pos (m : AnyMessage) : 0 < m.serialize.length := by
  have := PbbMessage.four_le_length_front m.2 0
  rw [AnyMessage.serialize, PbbMessage.length_serialize, PbbMessage.size]
  omega

theorem messages_read (h : ∀ m ∈ p.messages, m.2.Kept) (hshort : p.ShortMessages)
    (hfills : Fills (p.messages.flatMap AnyMessage.serialize) memory) :
    untilEnd AnyMessage.deserialize memory.length memory = .ok ((p.messages, true), []) := by
  have hcount := length_le_length_flatMap fun m (_ : m ∈ p.messages) => length_message_pos m
  have hread : untilEnd AnyMessage.deserialize memory.length memory =
      .ok ((p.messages.map id, true), []) := untilEnd_loads
    (fun m hm => AnyMessage.loads (h m hm) (hshort m hm)) (fun m _ => length_message_pos m)
    (hcount.trans_eq hfills.length_eq.symm) hfills
  rwa [map_id] at hread

theorem Kept.deserialize_eq (h : p.Kept) (hshort : p.ShortMessages)
    (hfills : Fills p.serialize memory) : deserialize memory = .ok (p, []) := by
  obtain ⟨w, w', rfl, hw, hw'⟩ := fills_append hfills
  obtain ⟨-, -, hversion⟩ := packetFlags_spec p.sequenceNumber.isSome !p.tlvs.isEmpty
  have hmessages := messages_read h.messages hshort hw'
  have hkept := h.version
  rw [fills_block hw, deserialize, (reads_front h.tlvs h.sizeReaches).bind_eq]
  show (do
    let (messages, atEnd) ← untilEnd AnyMessage.deserialize w'.length
    return { version := if atEnd then p.flags >>> 4 else 0, sequenceNumber := p.sequenceNumber
             tlvs := p.tlvs, messages } : Parser PbbPacket) w' = _
  rw [bind_apply, hmessages]
  show Except.ok ({ p with version := p.flags >>> 4 }, []) = Except.ok (p, [])
  rw [flags, hversion, ← hkept]

theorem kept_of_readFront {r : Byte × Option (BitVec 16) × List PbbTlv}
    (h : readFront (p.front ++ s) = .ok (r, t)) (hsame : r.2.2 = p.tlvs) :
    (∀ tlv ∈ p.tlvs, tlv.Kept) ∧ SizeReaches p.tlvs := by
  by_cases hempty : p.tlvs.isEmpty = true
  · rw [List.isEmpty_iff.mp hempty]
    exact ⟨fun _ h => absurd h not_mem_nil, reaches_nil _ _⟩
  · obtain ⟨-, hflag, -⟩ := packetFlags_spec p.sequenceNumber.isSome !p.tlvs.isEmpty
    rw [Bool.not_eq_true _ |>.mp hempty] at hflag
    rw [front, append_assoc, append_assoc, readFront, (reads_byte _).bind_eq,
      p.reads_sequenceNumber.bind_eq, if_neg hempty] at h
    obtain ⟨tlvs, u, htlvs, h⟩ := bind_eq_ok.mp h
    cases h
    rw [readTlvs, if_pos (of_decide_eq_true (by
      rw [flags, Bool.not_eq_true _ |>.mp hempty]; exact hflag))] at htlvs
    obtain rfl : tlvs = p.tlvs := hsame
    refine ⟨kept_of_block htlvs, (good_of_block htlvs ?_).2⟩
    exact forall₂_same.mpr fun tlv _ => by simp [PbbTlv.eqv]

theorem kept_of_deserialize (hshort : p.ShortMessages) (hfills : Fills p.serialize memory)
    (h : deserialize memory = .ok (p, [])) :
    p.version = 0 ∧ (∀ tlv ∈ p.tlvs, tlv.Kept) ∧ SizeReaches p.tlvs ∧
      ∀ m ∈ p.messages, m.2.Kept := by
  obtain ⟨w, w', rfl, hw, hw'⟩ := fills_append hfills
  obtain ⟨-, -, hversion⟩ := packetFlags_spec p.sequenceNumber.isSome !p.tlvs.isEmpty
  rw [fills_block hw, deserialize] at h
  obtain ⟨⟨flags', number, tlvs⟩, u, hfront, h⟩ := bind_eq_ok.mp h
  obtain ⟨rounds, u', hleft, h⟩ := bind_eq_ok.mp h
  cases hleft
  obtain ⟨⟨messages, atEnd⟩, u', hmessages, h⟩ := bind_eq_ok.mp h
  have hpkt := congrArg Prod.fst (Except.ok.inj h)
  have hsame : tlvs = p.tlvs := congrArg PbbPacket.tlvs hpkt
  obtain ⟨htlvs, hreaches⟩ := kept_of_readFront hfront hsame
  rw [reads_front htlvs hreaches w'] at hfront
  cases hfront
  have hlist : messages = p.messages := congrArg PbbPacket.messages hpkt
  rw [hlist] at hmessages
  refine ⟨?_, htlvs, hreaches, ?_⟩
  · rw [← congrArg PbbPacket.version hpkt]
    show (if atEnd then p.flags >>> 4 else 0) = 0
    rw [flags, hversion, ite_self]
  · exact good_of_untilEnd (E := Eq) id (fun m : AnyMessage => m.2.Kept)
      (fun m hm hkept => AnyMessage.loads hkept (hshort m hm))
      (fun m hm memory s a t hfills ha hab =>
        AnyMessage.kept_of_deserialize (hshort m hm) hfills (hab ▸ ha))
      hw' hmessages (forall₂_same.mpr fun _ _ => rfl)

theorem getSerializedSize_eq (htlvs : ∀ tlv ∈ p.tlvs, tlv.Kept) (hreaches : SizeReaches p.tlvs)
    (hmessages : ∀ m ∈ p.messages, m.2.Kept) (hshort : p.ShortMessages) :
    p.getSerializedSize = p.serialize.length % 4294967296 := by
  have hsizes : ∀ m ∈ p.messages, m.getSerializedSize = m.serialize.length := fun m hm =>
    (hmessages m hm).getSerializedSize (hshort m hm)
  have hsum : (p.messages.map AnyMessage.getSerializedSize).sum =
      (p.messages.flatMap AnyMessage.serialize).length := by
    rw [length_flatMap, map_congr_left hsizes]
  have htlvSum := sum_getSerializedSize p.tlvs
  rw [openRanges_eq_zero.mpr fun tlv htlv => (htlvs tlv htlv).range, add_zero] at htlvSum
  have hlt := length_lt_of_sizeReaches (fun tlv htlv => (htlvs tlv htlv).short) hreaches
  have hblock : (if p.tlvs.isEmpty then 0 else blockSerializedSize p.tlvs) =
      (if p.tlvs.isEmpty then [] else serializeBlock p.tlvs).length := by
    split
    · rfl
    · rw [blockSerializedSize, htlvSum, length_serializeBlock, Nat.mod_eq_of_lt (by omega)]
  have hnumber : (p.sequenceNumber.toList.flatMap (put (k := 2))).length =
      p.sequenceNumber.toList.length * 2 := by
    cases p.sequenceNumber with
    | none => rfl
    | some x => rfl
  rw [getSerializedSize, hsum, hblock, serialize, length_append, length_block, front,
    length_append, length_append, length_singleton, hnumber]
  omega

/-- A packet is read back exactly when none of its parts loses a field. -/
theorem packet_round_trips_iff (p : PbbPacket) (hshort : p.ShortMessages) :
    p.RoundTrips ↔ p.Kept := by
  constructor
  · rintro ⟨hsize, hread⟩
    obtain ⟨memory, hfills⟩ := exists_fills p.serialize
    obtain ⟨hversion, htlvs, hreaches, hmessages⟩ :=
      kept_of_deserialize hshort hfills (hread memory hfills)
    refine ⟨hversion, htlvs, hreaches, hmessages, ?_⟩
    rw [hsize, getSerializedSize_eq htlvs hreaches hmessages hshort]
    exact Nat.mod_lt _ (Nat.zero_lt_succ _)
  · intro h
    refine ⟨?_, fun memory hfills => h.deserialize_eq hshort hfills⟩
    rw [getSerializedSize_eq h.tlvs h.sizeReaches h.messages hshort, Nat.mod_eq_of_lt h.size]

/-- The TLV of the second of two addresses. -/
def secondAddressTlv (isMultivalue : Bool) : PbbTlv :=
  { type := 1, indexStart := some 1, indexStop := some 1, isMultivalue, value := some [7, 8] }

/-- A packet with a message with one address block. -/
def helloPacket (isMultivalue : Bool) : PbbPacket where
  sequenceNumber := some 258
  messages := [⟨.ipv4, {
    type := 3
    hopCount := some 2
    addressBlocks := [{
      addresses := [⟨[10, 0, 0, 1], rfl⟩, ⟨[10, 0, 0, 2], rfl⟩]
      addressTlvs := [secondAddressTlv isMultivalue] }] }⟩]

theorem helloPacket_shortMessages (isMultivalue : Bool) :
    (helloPacket isMultivalue).ShortMessages := by
  intro m hm
  obtain rfl := mem_singleton.mp hm
  cases isMultivalue <;> decide

theorem packet_round_trips_without_multivalue : (helloPacket false).RoundTrips := by
  refine (packet_round_trips_iff _ (helloPacket_shortMessages false)).mpr ⟨rfl, ?_, ?_, ?_, ?_⟩
  · exact fun _ h => absurd h List.not_mem_nil
  · exact reaches_nil _ _
  · intro m hm
    obtain rfl := List.mem_singleton.mp hm
    refine ⟨fun _ h => absurd h List.not_mem_nil, fun b hb => ?_⟩
    obtain rfl := List.mem_singleton.mp hb
    refine ⟨⟨by decide, by decide⟩, ?_, fun tlv htlv => ?_, sizeReaches_of_lt (by decide)⟩
    · exact ⟨[], [10, 0, 0, 1], [10, 0, 0, 2], [], rfl, by decide, by decide⟩
    · obtain rfl := List.mem_singleton.mp htlv
      exact ⟨by decide, rfl, fun v hv => Option.some.inj hv ▸ by decide⟩
  · decide

/-- The flag for several values is written, and is not read back. -/
theorem multivalue_is_lost : ¬∀ p : PbbPacket, p.ShortMessages → p.RoundTrips := by
  intro h
  obtain ⟨-, hread⟩ := h (helloPacket true) (helloPacket_shortMessages true)
  have hlost : deserialize [8, 1, 2, 3, 0x23, 0, 24, 2, 0, 0, 2, 0x80, 3, 10, 0, 0, 1, 2, 0, 7, 1,
      0x34, 1, 1, 2, 7, 8] = .ok (helloPacket false, []) := rfl
  have hsame := hlost.symm.trans (hread _ (fills_block_self _))
  exact absurd (congrArg Prod.fst (Except.ok.inj hsame)) (by decide)

end PbbPacket

end MoeJit.PacketBB
