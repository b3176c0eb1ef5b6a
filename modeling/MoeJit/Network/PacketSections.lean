import Mathlib.Algebra.BigOperators.Ring.List
import MoeJit.Lib.SizedWriter

/-!
# The sections of a serialized packet

A packet is serialized as five sections, one after another: the nix-vector, the byte tags, the packet
tags, the metadata and the buffer. Each has a function for its size, one that writes it and one that
reads it back, here on what the iterators over the lists of the source return.

For each section, `serializes` says that with room for its size it is written in full.
-/

namespace MoeJit.PacketSerialization

open Bytes ByteReader SizedWriter List

/-- The registered types. -/
structure TypeIds (τ : Type) where
  uid : τ → BitVec 16
  hash : τ → BitVec 32
  lookupByHash : BitVec 32 → Option τ
  lookupByHash_hash : ∀ t, lookupByHash (hash t) = some t
  name : τ → List Byte
  lookupByName : List Byte → Option τ
  lookupByName_name : ∀ t, lookupByName (name t) = some t
  name_ne_nil : ∀ t, name t ≠ []

/-- What stops a reader: a 0 returned early, an assertion, a read past the end, a type that is not
registered, or an offset that does not fit in its 16 bits. -/
inductive Stop
  | zero
  | assertion
  | endOfInput
  | unknownType
  | offset
  deriving DecidableEq, Repr

instance : EndOfInput Stop := ⟨.endOfInput⟩

abbrev Get := Reader Stop

def assert (c : Bool) : Get Unit := if c then pure () else throw .assertion

/-- An early return of 0. -/
def zeroIf (c : Bool) : Get Unit := if c then throw .zero else pure ()

def found {α : Type} : Option α → Get α
  | some a => pure a
  | none => throw .unknownType

/-! ## 1. Nix-vectors -/

structure NixVector where
  nixVector : List (BitVec 32) := []
  used : BitVec 32 := 0
  totalBitSize : BitVec 32 := 0
  epoch : BitVec 32 := 0
  deriving DecidableEq, Repr

namespace NixVector

def getSerializedSize (nix : NixVector) : BitVec 32 :=
  if nix.totalBitSize = 0 then 4
  else 4 + 4 + 4 * BitVec.ofNat 32 nix.nixVector.length + 4

/-- The words of a nix-vector. -/
def image (nix : NixVector) : Image :=
  word32 nix.totalBitSize ++
    if nix.totalBitSize = 0 then []
    else word32 nix.used ++ nix.nixVector.flatMap word32 ++ word32 nix.epoch

def serialize (nix : NixVector) (maxSize : BitVec 32) : Image × Bool :=
  if maxSize < nix.getSerializedSize then ([], false) else (nix.image, true)

def serializedSize (nix : NixVector) : Nat :=
  if nix.totalBitSize = 0 then 4 else 12 + 4 * nix.nixVector.length

theorem getSerializedSize_eq (nix : NixVector) :
    nix.getSerializedSize = BitVec.ofNat 32 nix.serializedSize := by
  unfold getSerializedSize serializedSize
  split
  · rfl
  · rw [BitVec.ofNat_add, BitVec.ofNat_mul, BitVec.add_assoc (4 + 4), BitVec.add_comm (4 * _),
      ← BitVec.add_assoc]
    rfl

theorem length_flatMap_word32 (l : List (BitVec 32)) :
    (l.flatMap word32).length = 4 * l.length := by
  induction l with
  | nil => rfl
  | cons x l ih =>
    rw [flatMap_cons, length_append, ih, length_cons]
    exact (Nat.add_comm _ _).trans (Nat.mul_succ _ _).symm

theorem length_image (nix : NixVector) : nix.image.length = nix.serializedSize := by
  unfold image serializedSize
  split
  · rfl
  · rw [length_append, length_append, length_append, length_flatMap_word32]
    show 4 + (4 + 4 * _ + 4) = _
    omega

theorem dvd_serializedSize (nix : NixVector) : 4 ∣ nix.serializedSize := by
  unfold serializedSize
  split
  · decide
  · exact Nat.dvd_add (by decide) (Nat.dvd_mul_right 4 _)

theorem serializes (nix : NixVector) : Serializes nix.serialize nix.serializedSize nix.image where
  written max h := by
    unfold serialize at h ⊢
    split
    · next hlt =>
      rw [if_pos hlt] at h
      cases h
    · rfl
  fits max h := by
    have hle : nix.getSerializedSize ≤ max := by
      rw [getSerializedSize_eq]
      exact (Nat.mod_le _ _).trans h
    rw [serialize, if_neg (BitVec.not_lt.mpr hle)]

/-- The vector is packed in 32-bit words. -/
def nixVectorLength (totalBitSize : BitVec 32) : BitVec 32 :=
  totalBitSize / 32 + if totalBitSize % 32 = 0 then 0 else 1

def deserialize (size : BitVec 32) : Get NixVector := do
  assert (4 ≤ size)
  zeroIf (size < 4)
  let totalBitSize ← load32
  if totalBitSize = 0 then
    return {}
  else
    let used ← load32
    assert (16 + nixVectorLength totalBitSize ≤ size)
    zeroIf (size < 16 + nixVectorLength totalBitSize * 4)
    let nixVector ← many load32 (nixVectorLength totalBitSize).toNat
    let epoch ← load32
    return ⟨nixVector, used, totalBitSize, epoch⟩

end NixVector

/-! ## 2. Byte tags -/

/-- A byte tag, as the iterator over all tags of a packet returns it. -/
structure ByteTag (τ : Type) where
  tid : τ
  start : BitVec 32
  stop : BitVec 32
  data : List Byte
  deriving DecidableEq, Repr

variable {τ : Type}

namespace ByteTag

def getSerializedSize (tags : List (ByteTag τ)) : BitVec 32 :=
  tags.foldl (fun size item =>
    size + padded 4 + 3 * 4 + padded (BitVec.ofNat 32 item.data.length)) 4

def serializeItem (ids : TypeIds τ) (maxSize : BitVec 32) (item : ByteTag τ) : Put Unit := do
  need maxSize (padded 4)
  put (word32 (ids.hash item.tid))
  need maxSize 4
  put (word32 (BitVec.ofNat 32 item.data.length))
  need maxSize 4
  put (word32 item.start)
  need maxSize 4
  put (word32 item.stop)
  need maxSize (padded (BitVec.ofNat 32 item.data.length))
  putPadded item.data
  countUp

def serialize (ids : TypeIds τ) (tags : List (ByteTag τ)) (maxSize : BitVec 32) : Image × Bool :=
  run do
    need maxSize 4
    put (word32 0)
    tags.forM (serializeItem ids maxSize)

def itemSize (item : ByteTag τ) : Nat := 16 + roundUp item.data.length

def serializedSize (tags : List (ByteTag τ)) : Nat := 4 + (tags.map itemSize).sum

theorem getSerializedSize_eq (tags : List (ByteTag τ)) :
    getSerializedSize tags = BitVec.ofNat 32 (serializedSize tags) := by
  refine foldl_size (fun s item => ?_) tags 4
  rw [padded_ofNat, itemSize, BitVec.ofNat_add, ← BitVec.add_assoc, BitVec.add_assoc s]
  rfl

def itemImage (ids : TypeIds τ) (item : ByteTag τ) : Image :=
  word32 (ids.hash item.tid) ++ word32 (BitVec.ofNat 32 item.data.length) ++ word32 item.start ++
    word32 item.stop ++ paddedBlock item.data

def image (ids : TypeIds τ) (tags : List (ByteTag τ)) : Image :=
  word32 (BitVec.ofNat 32 tags.length) ++ tags.flatMap (itemImage ids)

theorem length_image (ids : TypeIds τ) (tags : List (ByteTag τ)) :
    (image ids tags).length = serializedSize tags := by
  have hitem (item : ByteTag τ) : (itemImage ids item).length = item.itemSize := by
    simp only [itemImage, itemSize, length_append, length_word, length_paddedBlock]
  simp only [image, serializedSize, length_append, length_word, length_flatMap, hitem]

theorem dvd_serializedSize (tags : List (ByteTag τ)) : 4 ∣ serializedSize tags := by
  refine Nat.dvd_add (Nat.dvd_refl 4) (dvd_sum fun n hn => ?_)
  obtain ⟨item, _, rfl⟩ := mem_map.mp hn
  exact Nat.dvd_add (by decide) (dvd_roundUp _)

theorem writes_serializeItem (ids : TypeIds τ) (max : BitVec 32) (item : ByteTag τ) :
    Writes max (serializeItem ids max item) item.itemSize
      fun i => countedUp (i ++ itemImage ids item) := by
  refine (writes_field (n := 4) _ (writes_field (n := 4) _ (writes_field (n := 4) _
    (writes_field (n := 4) _ (writes_padded item.data writes_countUp))))).congr ?_ fun i => ?_
  · unfold itemSize
    omega
  · simp only [itemImage, append_assoc]

theorem serializes (ids : TypeIds τ) (tags : List (ByteTag τ)) :
    Serializes (serialize ids tags) (serializedSize tags) (image ids tags) :=
  serializes_counted (writes_serializeItem ids) tags

def deserializeItem (ids : TypeIds τ) (sizeCheck : BitVec 32) : Get (ByteTag τ × BitVec 32) := do
  assert (padded 4 ≤ sizeCheck)
  let hash ← load32
  let sizeCheck := sizeCheck - padded 4
  let tid ← found (ids.lookupByHash hash)
  assert (4 ≤ sizeCheck)
  let bufferSize ← load32
  let sizeCheck := sizeCheck - 4
  assert (4 ≤ sizeCheck)
  let start ← load32
  let sizeCheck := sizeCheck - 4
  assert (4 ≤ sizeCheck)
  let stop ← load32
  let sizeCheck := sizeCheck - 4
  assert (bufferSize ≤ sizeCheck)
  let data ← lookAhead (raw bufferSize.toNat)
  seek (padded bufferSize).toNat
  return (⟨tid, start, stop, data⟩, sizeCheck - padded bufferSize)

def deserialize (ids : TypeIds τ) (size : BitVec 32) : Get (List (ByteTag τ)) := do
  let sizeCheck := size - 4
  assert (4 ≤ sizeCheck)
  let numberTagData ← load32
  let r ← manyWith (deserializeItem ids) numberTagData.toNat (sizeCheck - 4)
  assert (r.2 = 0)
  zeroIf (r.2 ≠ 0)
  return r.1

end ByteTag

/-! ## 3. Packet tags -/

/-- A node of the list of packet tags. -/
structure TagData (τ : Type) where
  tid : τ
  data : List Byte
  deriving DecidableEq, Repr

namespace TagData

def getSerializedSize (tags : List (TagData τ)) : BitVec 32 :=
  tags.foldl (fun size cur =>
    size + 4 + padded 4 + padded (BitVec.ofNat 32 cur.data.length)) 4

def serializeItem (ids : TypeIds τ) (maxSize : BitVec 32) (cur : TagData τ) : Put Unit := do
  need maxSize 4
  put (word32 (BitVec.ofNat 32 cur.data.length))
  need maxSize (padded 4)
  put (word32 (ids.hash cur.tid))
  need maxSize (padded (BitVec.ofNat 32 cur.data.length))
  putPadded cur.data
  countUp

def serialize (ids : TypeIds τ) (tags : List (TagData τ)) (maxSize : BitVec 32) : Image × Bool :=
  run do
    need maxSize 4
    put (word32 0)
    tags.forM (serializeItem ids maxSize)

def itemSize (cur : TagData τ) : Nat := 8 + roundUp cur.data.length

def serializedSize (tags : List (TagData τ)) : Nat := 4 + (tags.map itemSize).sum

theorem getSerializedSize_eq (tags : List (TagData τ)) :
    getSerializedSize tags = BitVec.ofNat 32 (serializedSize tags) := by
  refine foldl_size (fun s cur => ?_) tags 4
  rw [padded_ofNat, itemSize, BitVec.ofNat_add, ← BitVec.add_assoc, BitVec.add_assoc s]
  rfl

def itemImage (ids : TypeIds τ) (cur : TagData τ) : Image :=
  word32 (BitVec.ofNat 32 cur.data.length) ++ word32 (ids.hash cur.tid) ++ paddedBlock cur.data

def image (ids : TypeIds τ) (tags : List (TagData τ)) : Image :=
  word32 (BitVec.ofNat 32 tags.length) ++ tags.flatMap (itemImage ids)

theorem length_image (ids : TypeIds τ) (tags : List (TagData τ)) :
    (image ids tags).length = serializedSize tags := by
  have hitem (cur : TagData τ) : (itemImage ids cur).length = cur.itemSize := by
    simp only [itemImage, itemSize, length_append, length_word, length_paddedBlock]
  simp only [image, serializedSize, length_append, length_word, length_flatMap, hitem]

theorem dvd_serializedSize (tags : List (TagData τ)) : 4 ∣ serializedSize tags := by
  refine Nat.dvd_add (Nat.dvd_refl 4) (dvd_sum fun n hn => ?_)
  obtain ⟨cur, _, rfl⟩ := mem_map.mp hn
  exact Nat.dvd_add (by decide) (dvd_roundUp _)

theorem writes_serializeItem (ids : TypeIds τ) (max : BitVec 32) (cur : TagData τ) :
    Writes max (serializeItem ids max cur) cur.itemSize
      fun i => countedUp (i ++ itemImage ids cur) := by
  refine (writes_field (n := 4) _ (writes_field (n := 4) _
    (writes_padded cur.data writes_countUp))).congr ?_ fun i => ?_
  · unfold itemSize
    omega
  · simp only [itemImage, append_assoc]

theorem serializes (ids : TypeIds τ) (tags : List (TagData τ)) :
    Serializes (serialize ids tags) (serializedSize tags) (image ids tags) :=
  serializes_counted (writes_serializeItem ids) tags

def deserializeItem (ids : TypeIds τ) (sizeCheck : BitVec 32) : Get (TagData τ × BitVec 32) := do
  assert (4 ≤ sizeCheck)
  let tagSize ← load32
  let sizeCheck := sizeCheck - 4
  assert (padded 4 ≤ sizeCheck)
  let hash ← load32
  let sizeCheck := sizeCheck - padded 4
  let tid ← found (ids.lookupByHash hash)
  assert (tagSize ≤ sizeCheck)
  let data ← lookAhead (raw tagSize.toNat)
  seek (padded tagSize).toNat
  return (⟨tid, data⟩, sizeCheck - padded tagSize)

def deserialize (ids : TypeIds τ) (size : BitVec 32) : Get (List (TagData τ)) := do
  let sizeCheck := size - 4
  assert (4 ≤ sizeCheck)
  let numberOfTags ← load32
  let r ← manyWith (deserializeItem ids) numberOfTags.toNat (sizeCheck - 4)
  assert (r.2 = 0)
  zeroIf (r.2 ≠ 0)
  return r.1

end TagData

/-! ## 4. Metadata -/

/-- An item of the metadata, as `ReadItems` returns it: the type is `none` for payload. -/
structure Item (τ : Type) where
  type : Option τ
  isBig : Bool
  size : BitVec 32
  chunkUid : BitVec 16
  fragmentStart : BitVec 32
  fragmentEnd : BitVec 32
  packetUid : BitVec 64
  deriving DecidableEq, Repr

structure Metadata (τ : Type) where
  packetUid : BitVec 64
  items : List (Item τ)
  deriving DecidableEq, Repr

/-- The name that an item is written with. -/
def Item.uidString (ids : TypeIds τ) (item : Item τ) : List Byte :=
  match item.type with
  | none => []
  | some tid => ids.name tid

def getUleb128Size (value : BitVec 32) : Nat :=
  if value < 0x80 then 1
  else if value < 0x4000 then 2
  else if value < 0x200000 then 3
  else if value < 0x10000000 then 4
  else 5

/-- The number of bytes that `AddBig` appends. -/
def Item.bigSize (ids : TypeIds τ) (item : Item τ) : Nat :=
  let uid : BitVec 32 := match item.type with
    | none => 0
    | some tid => (ids.uid tid).setWidth 32
  2 + 2 + getUleb128Size (uid <<< 1 ||| 1) + getUleb128Size item.size + 2 +
    getUleb128Size item.fragmentStart + getUleb128Size item.fragmentEnd + 4

/-- What is read of an item that `AddBig` has written. The packet uid has 32 bits there, and the last
of its bytes is read with its sign. -/
def Item.big (item : Item τ) : Item τ :=
  { item with isBig := true, packetUid := (item.packetUid.setWidth 32).signExtend 64 }

namespace Metadata

/-- The size does not depend on whether metadata is enabled: while it is not there are no items. -/
def getSerializedSize (ids : TypeIds τ) (metadata : Metadata τ) : BitVec 32 :=
  metadata.items.foldl (fun totalSize item =>
    totalSize + (4 + BitVec.ofNat 32 (item.uidString ids).length) + (1 + 4 + 2 + 4 + 4 + 8)) 8

/-- Writes at the current position, unless that ends after `maxSize`. -/
def addToRaw (maxSize : BitVec 32) (w : Image) : Put Unit := do
  need maxSize (BitVec.ofNat 32 w.length)
  put w

def serializeItem (ids : TypeIds τ) (maxSize : BitVec 32) (item : Item τ) : Put Unit := do
  addToRaw maxSize (word32 (BitVec.ofNat 32 (item.uidString ids).length))
  addToRaw maxSize (block (item.uidString ids))
  addToRaw maxSize (word (k := 1) (if item.isBig then 1 else 0))
  addToRaw maxSize (word32 item.size)
  addToRaw maxSize (word (k := 2) item.chunkUid)
  addToRaw maxSize (word32 item.fragmentStart)
  addToRaw maxSize (word32 item.fragmentEnd)
  addToRaw maxSize (word (k := 8) item.packetUid)

def serialize (ids : TypeIds τ) (metadata : Metadata τ) (maxSize : BitVec 32) : Image × Bool :=
  run do
    addToRaw maxSize (word (k := 8) metadata.packetUid)
    metadata.items.forM (serializeItem ids maxSize)

def itemSize (ids : TypeIds τ) (item : Item τ) : Nat := 27 + (item.uidString ids).length

def serializedSize (ids : TypeIds τ) (metadata : Metadata τ) : Nat :=
  8 + (metadata.items.map (itemSize ids)).sum

theorem getSerializedSize_eq (ids : TypeIds τ) (metadata : Metadata τ) :
    metadata.getSerializedSize ids = BitVec.ofNat 32 (metadata.serializedSize ids) := by
  refine foldl_size (fun s item => ?_) metadata.items 8
  rw [itemSize, Nat.add_comm 27, BitVec.ofNat_add, BitVec.add_assoc, BitVec.add_comm 4,
    BitVec.add_assoc]
  rfl

def itemImage (ids : TypeIds τ) (item : Item τ) : Image :=
  word32 (BitVec.ofNat 32 (item.uidString ids).length) ++ block (item.uidString ids) ++
    word (k := 1) (if item.isBig then 1 else 0) ++ word32 item.size ++
    word (k := 2) item.chunkUid ++ word32 item.fragmentStart ++ word32 item.fragmentEnd ++
    word (k := 8) item.packetUid

def image (ids : TypeIds τ) (metadata : Metadata τ) : Image :=
  word (k := 8) metadata.packetUid ++ metadata.items.flatMap (itemImage ids)

theorem length_itemImage (ids : TypeIds τ) (item : Item τ) :
    (itemImage ids item).length = itemSize ids item := by
  simp only [itemImage, itemSize, length_append, length_word, length_block]
  omega

theorem length_image (ids : TypeIds τ) (metadata : Metadata τ) :
    (metadata.image ids).length = metadata.serializedSize ids := by
  simp only [image, serializedSize, length_append, length_word, length_flatMap, length_itemImage]

theorem writes_addToRaw {max : BitVec 32} {y : Put Unit} {m : Nat} {g : Image → Image} (w : Image)
    (hy : Writes max y m g) :
    Writes max (do addToRaw max w; y) (w.length + m) fun image => g (image ++ w) := by
  rw [addToRaw, bind_assoc]
  exact writes_field w hy

theorem writes_serializeItem (ids : TypeIds τ) (max : BitVec 32) (item : Item τ) :
    Writes max (serializeItem ids max item) (itemSize ids item) (· ++ itemImage ids item) := by
  refine (writes_addToRaw _ (writes_addToRaw _ (writes_addToRaw _ (writes_addToRaw _
    (writes_addToRaw _ (writes_addToRaw _ (writes_addToRaw _ (writes_lastField _)))))))).congr
    ?_ fun i => ?_
  · simp only [length_word, length_block, itemSize]
    omega
  · simp only [itemImage, append_assoc]

theorem serializes (ids : TypeIds τ) (metadata : Metadata τ) :
    Serializes (metadata.serialize ids) (metadata.serializedSize ids) (metadata.image ids) := by
  have h := serializes_run fun max => writes_addToRaw
    (word (k := 8) metadata.packetUid) (writes_forM (writes_serializeItem ids max) metadata.items)
  have himage (image : Image) : metadata.items.foldl (fun i item => i ++ itemImage ids item) image =
      image ++ metadata.items.flatMap (itemImage ids) := by
    induction metadata.items generalizing image with
    | nil => exact (append_nil image).symm
    | cons item items ih => rw [foldl_cons, ih, flatMap_cons, append_assoc]
  rwa [himage, length_word] at h

/-- The type with a name, which is empty for payload. -/
def typeOf (ids : TypeIds τ) (uidStringSize : BitVec 32) (uidString : List Byte) :
    Get (Option τ) :=
  if uidStringSize = 0 then pure none else some <$> found (ids.lookupByName uidString)

/-- The item at the front, with what is left of the size. -/
def deserializeItem (ids : TypeIds τ) (desSize : BitVec 32) : Get (Item τ × BitVec 32) := do
  let uidStringSize ← load32
  let uidString ← raw uidStringSize.toNat
  let desSize := desSize - 4 - uidStringSize
  let type ← typeOf ids uidStringSize uidString
  let isBig ← load 1
  let size ← load32
  let chunkUid ← load 2
  let fragmentStart ← load32
  let fragmentEnd ← load32
  let packetUid ← load 8
  return (⟨type, isBig.getLsbD 0, size, chunkUid, fragmentStart, fragmentEnd, packetUid⟩,
    desSize - 1 - 4 - 2 - 4 - 4 - 8)

def offsetIn16Bits (used : Nat) : Get Unit := if used < 0xffff then pure () else throw .offset

/-- The loop over the items, each of which is appended as a big one at the offset `used`. An item
takes at least one byte of the input, whose length bounds the number of rounds. -/
def deserializeItems (ids : TypeIds τ) : Nat → Nat → BitVec 32 → Get (List (Item τ))
  | 0, _, _ => throw .endOfInput
  | rounds + 1, used, desSize => do
    if desSize = 0 then
      return []
    else
      let r ← deserializeItem ids desSize
      offsetIn16Bits used
      let items ← deserializeItems ids rounds (used + r.1.bigSize ids) r.2
      return r.1.big :: items

def deserialize (ids : TypeIds τ) (size : BitVec 32) : Get (Metadata τ) :=
  within size.toNat do
    let packetUid ← load 8
    let rounds ← left
    let items ← deserializeItems ids (rounds + 1) 0 (size - 4 - 8)
    return ⟨packetUid, items⟩

end Metadata

/-! ## 5. Buffers -/

/-- The bytes of a packet: those before the zero area, its size, and those after it. -/
structure Buffer where
  dataStart : List Byte
  zeroArea : BitVec 32
  dataEnd : List Byte
  deriving DecidableEq, Repr

namespace Buffer

def content (buffer : Buffer) : List Byte :=
  buffer.dataStart ++ List.replicate buffer.zeroArea.toNat 0 ++ buffer.dataEnd

def getSerializedSize (buffer : Buffer) : BitVec 32 :=
  4 + 4 + padded (BitVec.ofNat 32 buffer.dataStart.length) + 4 +
    padded (BitVec.ofNat 32 buffer.dataEnd.length)

def serialize (buffer : Buffer) (maxSize : BitVec 32) : Image × Bool :=
  run do
    need maxSize 4
    put (word32 buffer.zeroArea)
    need maxSize 4
    put (word32 (BitVec.ofNat 32 buffer.dataStart.length))
    need maxSize (padded (BitVec.ofNat 32 buffer.dataStart.length))
    putPadded buffer.dataStart
    need maxSize 4
    put (word32 (BitVec.ofNat 32 buffer.dataEnd.length))
    need maxSize (padded (BitVec.ofNat 32 buffer.dataEnd.length))
    put (block buffer.dataEnd)

def serializedSize (buffer : Buffer) : Nat :=
  12 + roundUp buffer.dataStart.length + roundUp buffer.dataEnd.length

theorem getSerializedSize_eq (buffer : Buffer) :
    buffer.getSerializedSize = BitVec.ofNat 32 buffer.serializedSize := by
  rw [getSerializedSize, serializedSize, padded_ofNat, padded_ofNat, BitVec.ofNat_add,
    BitVec.ofNat_add, BitVec.add_assoc (4 + 4), BitVec.add_comm (BitVec.ofNat 32 _) 4,
    ← BitVec.add_assoc (4 + 4)]
  rfl

def image (buffer : Buffer) : Image :=
  word32 buffer.zeroArea ++ word32 (BitVec.ofNat 32 buffer.dataStart.length) ++
    paddedBlock buffer.dataStart ++ word32 (BitVec.ofNat 32 buffer.dataEnd.length) ++
    block buffer.dataEnd

theorem serializes (buffer : Buffer) :
    Serializes buffer.serialize buffer.serializedSize buffer.image := by
  have hend (max : BitVec 32) : Writes max _ _ _ :=
    writes_lastField (n := roundUp buffer.dataEnd.length) (block buffer.dataEnd)
  have h := serializes_run fun max => writes_field (n := 4) (word32 buffer.zeroArea)
    (writes_field (n := 4) (word32 (BitVec.ofNat 32 buffer.dataStart.length))
      (writes_padded buffer.dataStart
        (writes_field (n := 4) (word32 (BitVec.ofNat 32 buffer.dataEnd.length)) (hend max))))
  have hsize : 4 + (4 + (roundUp buffer.dataStart.length + (4 + roundUp buffer.dataEnd.length))) =
      buffer.serializedSize := by
    unfold serializedSize
    omega
  rw [hsize, ← padded_ofNat] at h
  exact h

/-- A buffer of zeros to which the bytes at the start and at the end are added. -/
def deserialize (size : BitVec 32) : Get Buffer := do
  let sizeCheck := size - 4
  assert (4 ≤ sizeCheck)
  let zeroDataLength ← load32
  let sizeCheck := sizeCheck - 4
  assert (4 ≤ sizeCheck)
  let dataStartLength ← load32
  let sizeCheck := sizeCheck - 4
  assert (dataStartLength ≤ sizeCheck)
  let dataStart ← lookAhead (raw dataStartLength.toNat)
  seek (padded dataStartLength).toNat
  let sizeCheck := sizeCheck - padded dataStartLength
  assert (4 ≤ sizeCheck)
  let dataEndLength ← load32
  let sizeCheck := sizeCheck - 4
  assert (dataEndLength ≤ sizeCheck)
  let dataEnd ← raw dataEndLength.toNat
  let sizeCheck := sizeCheck - padded dataEndLength
  assert (sizeCheck = 0)
  zeroIf (sizeCheck ≠ 0)
  return ⟨dataStart, zeroDataLength, dataEnd⟩

theorem length_image (buffer : Buffer) :
    buffer.image.length ≤ buffer.serializedSize ∧ buffer.serializedSize ≤ buffer.image.length + 3 := by
  have hend := le_roundUp buffer.dataEnd.length
  have hend' := roundUp_le buffer.dataEnd.length
  simp only [image, serializedSize, length_append, length_word, length_block, length_paddedBlock]
  omega

theorem dvd_serializedSize (buffer : Buffer) : 4 ∣ buffer.serializedSize :=
  Nat.dvd_add (Nat.dvd_add (by decide) (dvd_roundUp _)) (dvd_roundUp _)

end Buffer

end MoeJit.PacketSerialization
