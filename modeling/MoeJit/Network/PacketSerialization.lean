import MoeJit.Network.PacketSections

/-!
# Serialized packets

`Packet::Serialize` writes the five sections one after another, each with its length in front of it
and padded to four bytes. The size that `GetSerializedSize` asks for counts the padding and the words
of the lengths. The checks of `Serialize` count neither, and `Deserialize` takes only the sections and
their lengths off the size that it is given.

Every packet is also written into a buffer that is one byte too small, so that no packet makes the
round trip (`never_round_trips`).
-/

namespace MoeJit.PacketSerialization

open Bytes ByteReader SizedWriter List
open BitVec (ofNat ofNat_add)

/-- What the iterator over the metadata makes of an item. -/
def Item.shown {τ : Type} (item : Item τ) :
    Option τ × BitVec 32 × BitVec 16 × BitVec 32 × BitVec 32 :=
  (item.type, item.size, item.chunkUid, item.fragmentStart, item.fragmentEnd)

/-- What of a packet is serialized. -/
structure Packet (τ : Type) where
  buffer : Buffer
  byteTagList : List (ByteTag τ)
  packetTagList : List (TagData τ)
  metadata : Metadata τ
  nixVector : Option NixVector
  deriving DecidableEq, Repr

namespace Packet

variable {τ : Type}

/-- The size of the nix-vector with its length. Without one there is a length alone. -/
def nixVectorSize : Option NixVector → BitVec 32
  | some nix => padded nix.getSerializedSize + 4
  | none => 4

def getSerializedSize (ids : TypeIds τ) (p : Packet τ) : BitVec 32 :=
  nixVectorSize p.nixVector +
  padded (TagData.getSerializedSize p.packetTagList) + 4 +
  padded (ByteTag.getSerializedSize p.byteTagList) + 4 +
  padded (p.metadata.getSerializedSize ids) + 4 +
  padded p.buffer.getSerializedSize + 4

/-- Goes to the end of the padding of a section. -/
def advance (size : BitVec 32) : Put Unit := put (hole ((padded size).toNat - size.toNat))

def putNixVector (maxSize : BitVec 32) : Option NixVector → Put Unit
  | some nix => do
    putSection maxSize nix.getSerializedSize nix.serialize
    advance nix.getSerializedSize
  | none => do
    need maxSize 4
    put (word32 4)

def serialize (ids : TypeIds τ) (p : Packet τ) (maxSize : BitVec 32) : Image × Bool :=
  run do
    putNixVector maxSize p.nixVector
    let byteTagSize := ByteTag.getSerializedSize p.byteTagList
    putSection maxSize byteTagSize (ByteTag.serialize ids p.byteTagList)
    advance byteTagSize
    let packetTagSize := TagData.getSerializedSize p.packetTagList
    putSection maxSize packetTagSize (TagData.serialize ids p.packetTagList)
    advance packetTagSize
    let metaSize := p.metadata.getSerializedSize ids
    putSection maxSize metaSize (p.metadata.serialize ids)
    advance metaSize
    putSection maxSize p.buffer.getSerializedSize p.buffer.serialize

/-- A section with its length, and what is left of the size of the packet. -/
def getSection {α : Type} (size : BitVec 32) (deserialize : BitVec 32 → Get α) :
    Get (α × BitVec 32) := do
  let sectionSize ← load32
  assert (sectionSize ≤ size)
  let a ← lookAhead (deserialize sectionSize)
  seek (padded (sectionSize - 4)).toNat
  return (a, size - sectionSize)

/-- The nix-vector, which is not there when its length is the one of its own word. -/
def getNixVector (size : BitVec 32) : Get (Option NixVector × BitVec 32) := do
  let nixSize ← load32
  assert (nixSize ≤ size)
  if 4 < nixSize then
    let nix ← lookAhead (NixVector.deserialize nixSize)
    seek (padded (nixSize - 4)).toNat
    return (some nix, size - nixSize)
  else
    return (none, size - nixSize)

/-- The packet that is read, and whether the number of bytes was the expected one. -/
def deserialize (ids : TypeIds τ) (size : BitVec 32) : Get (Bool × Packet τ) := do
  let nix ← getNixVector size
  let byteTags ← getSection nix.2 (ByteTag.deserialize ids)
  let packetTags ← getSection byteTags.2 (TagData.deserialize ids)
  let metadata ← getSection packetTags.2 (Metadata.deserialize ids)
  let bufSize ← load32
  assert (bufSize ≤ metadata.2)
  let buffer ← Buffer.deserialize bufSize
  return (metadata.2 - bufSize = 0,
    ⟨buffer, byteTags.1, packetTags.1, metadata.1, nix.1⟩)

/-! ## 1. Sizes -/

variable (ids : TypeIds τ) (p : Packet τ)

/-- What the checks of `serialize` count. -/
def checkedSize : Nat :=
  p.nixVector.elim 4 NixVector.serializedSize +
  ByteTag.serializedSize p.byteTagList + TagData.serializedSize p.packetTagList +
  p.metadata.serializedSize ids + p.buffer.serializedSize

/-- What `getSerializedSize` counts. -/
def serializedSize : Nat :=
  p.nixVector.elim 4 (fun nix => nix.serializedSize + 4) +
  (TagData.serializedSize p.packetTagList + 4) + (ByteTag.serializedSize p.byteTagList + 4) +
  (roundUp (p.metadata.serializedSize ids) + 4) + (p.buffer.serializedSize + 4)

theorem padded_of_dvd {n : Nat} (h : 4 ∣ n) : padded (ofNat 32 n) = ofNat 32 n := by
  rw [padded_ofNat, roundUp_of_dvd h]

theorem getSerializedSize_eq : p.getSerializedSize ids = ofNat 32 (p.serializedSize ids) := by
  have hnix : nixVectorSize p.nixVector =
      ofNat 32 (p.nixVector.elim 4 fun nix => nix.serializedSize + 4) := by
    cases p.nixVector with
    | none => rfl
    | some nix =>
      rw [nixVectorSize, NixVector.getSerializedSize_eq, padded_of_dvd nix.dvd_serializedSize]
      exact (ofNat_add _ 4).symm
  rw [getSerializedSize, serializedSize, hnix, TagData.getSerializedSize_eq,
    ByteTag.getSerializedSize_eq, Metadata.getSerializedSize_eq, Buffer.getSerializedSize_eq,
    padded_of_dvd (TagData.dvd_serializedSize _), padded_of_dvd (ByteTag.dvd_serializedSize _),
    padded_of_dvd (Buffer.dvd_serializedSize _), padded_ofNat]
  simp only [ofNat_add, ← BitVec.add_assoc]
  rfl

theorem checkedSize_add_le : p.checkedSize ids + 16 ≤ p.serializedSize ids := by
  have hmeta := le_roundUp (p.metadata.serializedSize ids)
  unfold checkedSize serializedSize
  cases p.nixVector <;> simp only [Option.elim] <;> omega

/-! ## 2. What is written -/

/-- A section with its length and its padding. -/
def sectionImage (n : Nat) (w : Image) : Image :=
  word32 (BitVec.ofNat 32 n + 4) ++ w ++
    hole ((padded (BitVec.ofNat 32 n)).toNat - (BitVec.ofNat 32 n).toNat)

def image : Image :=
  p.nixVector.elim (word32 4) (fun nix => sectionImage nix.serializedSize nix.image) ++
  sectionImage (ByteTag.serializedSize p.byteTagList) (ByteTag.image ids p.byteTagList) ++
  sectionImage (TagData.serializedSize p.packetTagList) (TagData.image ids p.packetTagList) ++
  sectionImage (p.metadata.serializedSize ids) (p.metadata.image ids) ++
  (word32 (BitVec.ofNat 32 p.buffer.serializedSize + 4) ++ p.buffer.image)

theorem writes_section {max : BitVec 32} {serialize : BitVec 32 → Image × Bool} {n : Nat}
    {w : Image} (h : Serializes serialize n w) :
    Writes max (do putSection max (ofNat 32 n) serialize; advance (ofNat 32 n)) n
      (· ++ sectionImage n w) := by
  refine ((writes_putSection h).bind (writes_put _)).congr rfl fun i => ?_
  simp only [Function.comp_apply, sectionImage, append_assoc]

theorem writes_putNixVector (max : BitVec 32) (nix : Option NixVector) :
    Writes max (putNixVector max nix) (nix.elim 4 NixVector.serializedSize)
      (· ++ nix.elim (word32 4) fun nix => sectionImage nix.serializedSize nix.image) := by
  cases nix with
  | none => exact writes_lastField (n := 4) (word32 4)
  | some nix =>
    rw [putNixVector, NixVector.getSerializedSize_eq]
    exact writes_section nix.serializes

theorem serializes : Serializes (p.serialize ids) (p.checkedSize ids) (p.image ids) := by
  have h := serializes_run fun max => (writes_putNixVector max p.nixVector).bind
    ((writes_section (ByteTag.serializes ids p.byteTagList)).bind
    ((writes_section (TagData.serializes ids p.packetTagList)).bind
    ((writes_section (p.metadata.serializes ids)).bind (writes_putSection p.buffer.serializes))))
  simp only [Function.comp_apply, nil_append, ← Nat.add_assoc, bind_assoc] at h
  unfold serialize
  simp only [ByteTag.getSerializedSize_eq, TagData.getSerializedSize_eq,
    Metadata.getSerializedSize_eq, Buffer.getSerializedSize_eq]
  exact h

/-- The end of the image: its last byte is written, and is one of the last of the whole size. -/
theorem exists_last : ∃ i b, (p.image ids)[i]? = some (some b) ∧ p.serializedSize ids ≤ i + 7 := by
  have hlast : ∃ b, (p.image ids).getLast? = some (some b) := by
    have hbytes : word32 (ofNat 32 p.buffer.dataEnd.length) ++ block p.buffer.dataEnd =
        (toBytes (k := 4) (ofNat 32 p.buffer.dataEnd.length) ++ p.buffer.dataEnd).map some :=
      map_append.symm
    have hne : toBytes (k := 4) (ofNat 32 p.buffer.dataEnd.length) ++ p.buffer.dataEnd ≠ [] :=
      append_ne_nil_of_left_ne_nil (ne_nil_of_length_eq_add_one (length_toBytes _)) _
    refine ⟨List.getLast _ hne, ?_⟩
    rw [image, Buffer.image, append_assoc _ (word32 _) (block _), hbytes, ← append_assoc,
      ← append_assoc, getLast?_append, getLast?_map, getLast?_eq_some_getLast hne]
    rfl
  have hlen : p.serializedSize ids ≤ (p.image ids).length + 6 := by
    have hsection (n : Nat) (w : Image) (hw : w.length = n) : n + 4 ≤ (sectionImage n w).length := by
      rw [sectionImage, length_append, length_append, hw, length_word]
      omega
    have hnix : p.nixVector.elim 4 (fun nix => nix.serializedSize + 4) ≤
        (p.nixVector.elim (word32 4) fun nix => sectionImage nix.serializedSize nix.image).length := by
      cases p.nixVector with
      | none => exact le_rfl
      | some nix => exact hsection _ _ nix.length_image
    have hbyte := hsection _ _ (ByteTag.length_image ids p.byteTagList)
    have hpkt := hsection _ _ (TagData.length_image ids p.packetTagList)
    have hmeta := hsection _ _ (p.metadata.length_image ids)
    have hround := roundUp_le (p.metadata.serializedSize ids)
    have hbuffer := p.buffer.length_image
    simp only [serializedSize, image, length_append, length_word]
    omega
  obtain ⟨b, hb⟩ := hlast
  rw [getLast?_eq_getElem?] at hb
  exact ⟨_, b, hb, by omega⟩

/-! ## 3. Round trips -/

/-- The same contents, tags and metadata items. -/
structure Reproduces (q : Packet τ) : Prop where
  content : q.buffer.content = p.buffer.content
  byteTags : q.byteTagList = p.byteTagList
  packetTags : q.packetTagList = p.packetTagList
  items : q.metadata.items.map Item.shown = p.metadata.items.map Item.shown

/-- Every byte that is written is one of the first `size`. -/
def Inside (size : BitVec 32) (written : Image) : Prop :=
  ∀ i b, written[i]? = some (some b) → i < size.toNat

/-- A packet fits in the size that it asks for and in no smaller one, and is read back from it. -/
structure RoundTrips : Prop where
  succeeds : (p.serialize ids (p.getSerializedSize ids)).2 = true
  inside : Inside (p.getSerializedSize ids) (p.serialize ids (p.getSerializedSize ids)).1
  smaller : ∀ maxSize < p.getSerializedSize ids,
    (p.serialize ids maxSize).2 = false ∧ Inside maxSize (p.serialize ids maxSize).1
  readBack : ∀ memory, Fills (p.serialize ids (p.getSerializedSize ids)).1 memory → ∀ rest, ∃ q left,
    deserialize ids (p.getSerializedSize ids) (memory ++ rest) = .ok ((true, q), left) ∧
      p.Reproduces q

/-- With sixteen bytes less it is written in full as well, over the end of the buffer. -/
theorem serialize_overruns (hsize : p.serializedSize ids < 2 ^ 32) :
    ∃ maxSize < p.getSerializedSize ids, (p.serialize ids maxSize).2 = true ∧
      ¬Inside maxSize (p.serialize ids maxSize).1 := by
  have hle := p.checkedSize_add_le ids
  have hchecked : (ofNat 32 (p.checkedSize ids)).toNat = p.checkedSize ids :=
    Nat.mod_eq_of_lt (by omega)
  have hok := (p.serializes ids).fits (ofNat 32 (p.checkedSize ids)) hchecked.ge
  refine ⟨ofNat 32 (p.checkedSize ids), ?_, hok, fun hinside => ?_⟩
  · rw [BitVec.lt_def, hchecked, getSerializedSize_eq, BitVec.toNat_ofNat, Nat.mod_eq_of_lt hsize]
    omega
  · obtain ⟨i, b, hi, hlast⟩ := p.exists_last ids
    rw [(p.serializes ids).written _ hok] at hinside
    have := hinside i b hi
    omega

/-- No packet makes the round trip: one that is written in full into the size that it asks for is
written in full into a smaller one. -/
theorem never_round_trips : ¬p.RoundTrips ids := by
  intro h
  rcases Nat.lt_or_ge (p.serializedSize ids) (2 ^ 32) with hsize | hwrap
  · obtain ⟨maxSize, hlt, hok, _⟩ := p.serialize_overruns ids hsize
    rw [(h.smaller maxSize hlt).1] at hok
    cases hok
  · -- the size that is asked for has wrapped
    obtain ⟨i, b, hi, hlast⟩ := p.exists_last ids
    have hinside := h.inside
    rw [(p.serializes ids).written _ h.succeeds] at hinside
    have hlt := hinside i b hi
    rw [getSerializedSize_eq, BitVec.toNat_ofNat] at hlt
    omega

/-- The types of a program without headers and tags. -/
def noTypes : TypeIds Empty where
  uid := Empty.elim
  hash := Empty.elim
  lookupByHash _ := none
  lookupByHash_hash t := t.elim
  name := Empty.elim
  lookupByName _ := none
  lookupByName_name t := t.elim
  name_ne_nil t := t.elim

/-- Ten zero bytes, which are the payload of the packet. -/
def payload : Packet Empty where
  buffer := ⟨[], 10, []⟩
  byteTagList := []
  packetTagList := []
  metadata := ⟨7, [⟨none, false, 10, 0, 0, 10, 7⟩]⟩
  nixVector := none

/-- It asks for 76 bytes, is written in full into 59, and is not read with a non-zero result. -/
theorem payload_into_less : payload.getSerializedSize noTypes = 76 ∧
    (payload.serialize noTypes 59).2 = true ∧ (payload.serialize noTypes 59).1.length = 76 ∧
    ¬payload.RoundTrips noTypes := by
  have hok : (payload.serialize noTypes 59).2 = true := by decide +kernel
  refine ⟨by decide +kernel, hok, by decide +kernel, fun h => ?_⟩
  rw [(h.smaller 59 (by decide +kernel)).1] at hok
  cases hok

end Packet

end MoeJit.PacketSerialization
