import MoeJit.Lib.SizedReader

/-!
# TLVs of PacketBB

A TLV has a type and a value, and may have an extension of the type and a range of indices. Its flags
say what follows. The end of a range is written only together with its start, the flag for several
values only with a value, and that flag is not read (`PbbTlv.received`).

A TLV block has its size in front, in 16 bits. It is read back, as far as `PbbTlv.eqv` compares,
when the values have fewer than 65536 bytes and the size reaches the last TLV (`loads_block` and
`good_of_block`).
-/

namespace MoeJit.PacketBB

open Bytes ByteReader SizedWriter SizedReader List
open BitVec (ofNat toNat_ofNat)

inductive Failure
  /-- A read past the end, or of a size that is negative. -/
  | invalid
  deriving DecidableEq

instance : EndOfInput Failure := ⟨.invalid⟩

abbrev Parser := Reader Failure

/-! ## 1. Model -/

structure PbbTlv where
  type : Byte
  typeExt : Option Byte := none
  indexStart : Option Byte := none
  indexStop : Option Byte := none
  isMultivalue : Bool := false
  value : Option (List Byte) := none
  deriving DecidableEq

namespace PbbTlv

def lengthSize (v : List Byte) : Nat := if 255 < v.length then 2 else 1

def getSerializedSize (tlv : PbbTlv) : Nat :=
  2 + tlv.typeExt.toList.length + tlv.indexStart.toList.length + tlv.indexStop.toList.length +
    match tlv.value with
    | none => 0
    | some v => lengthSize v + v.length

/-- `THAS_TYPE_EXT`, `THAS_SINGLE_INDEX`, `THAS_MULTI_INDEX`, `THAS_VALUE`, `THAS_EXT_LEN` and
`TIS_MULTIVALUE`. -/
def flagsOf (typeExt indexStart indexStop value extLen multivalue : Bool) : Byte :=
  (if typeExt then 0x80 else 0) |||
    (if indexStart then if indexStop then 0x20 else 0x40 else 0) |||
    if value then 0x10 ||| (if extLen then 0x08 else 0) ||| (if multivalue then 0x04 else 0) else 0

def flags (tlv : PbbTlv) : Byte :=
  flagsOf tlv.typeExt.isSome tlv.indexStart.isSome tlv.indexStop.isSome tlv.value.isSome
    (decide (255 < (tlv.value.getD []).length)) tlv.isMultivalue

def indexBytes (tlv : PbbTlv) : List Byte :=
  match tlv.indexStart with
  | none => []
  | some start => start :: tlv.indexStop.toList

/-- A length of more than 255 is cut to 16 bits. -/
def valueBytes (v : List Byte) : List Byte :=
  (if 255 < v.length then put (k := 2) (BitVec.ofNat 16 v.length) else [BitVec.ofNat 8 v.length]) ++ v

def serialize (tlv : PbbTlv) : List Byte :=
  [tlv.type] ++ ([tlv.flags] ++ (tlv.typeExt.toList ++ (tlv.indexBytes ++
    tlv.value.toList.flatMap valueBytes)))

/-- The start and the stop of the range. -/
def readIndices (flags : Byte) : Parser (Option Byte × Option Byte) :=
  if flags &&& 0x20 ≠ 0 then do
    let start ← byte
    let stop ← byte
    return (some start, some stop)
  else do
    let start ← readIf (flags &&& 0x40 ≠ 0) byte
    return (start, none)

def readLength (flags : Byte) : Parser Nat :=
  if flags &&& 0x08 ≠ 0 then do
    let len ← get 2
    return len.toNat
  else do
    let len ← byte
    return len.toNat

def readValue (flags : Byte) : Parser (List Byte) := do
  let len ← readLength flags
  raw len

def deserialize : Parser PbbTlv := do
  let type ← byte
  let flags ← byte
  let typeExt ← readIf (flags &&& 0x80 ≠ 0) byte
  let indices ← readIndices flags
  let value ← readIf (flags &&& 0x10 ≠ 0) (readValue flags)
  return { type, typeExt, indexStart := indices.1, indexStop := indices.2, value }

/-- `operator==`. -/
def eqv (tlv other : PbbTlv) : Bool :=
  tlv.type = other.type && tlv.typeExt = other.typeExt && tlv.value = other.value

end PbbTlv

/-- `GetSerializedSize` of a TLV block. The size is added up in 32 bits. -/
def blockSerializedSize (tlvs : List PbbTlv) : Nat :=
  (2 + (tlvs.map PbbTlv.getSerializedSize).sum) % 4294967296

/-- `Serialize` of a TLV block. -/
def serializeBlock (tlvs : List PbbTlv) : List Byte :=
  let content := tlvs.flatMap PbbTlv.serialize
  put (k := 2) (BitVec.ofNat 16 content.length) ++ content

/-- `Deserialize` of a TLV block. -/
def deserializeBlock : Parser (List PbbTlv) := do
  let size ← get 2
  upTo PbbTlv.deserialize size.toNat size.toNat

/-! ## 2. A TLV is read back -/

variable {tlv : PbbTlv} {s t : List Byte} {tlvs : List PbbTlv}

namespace PbbTlv

/-- What is read back of a TLV. -/
def received (tlv : PbbTlv) : PbbTlv :=
  { tlv with
    indexStop := if tlv.indexStart.isSome then tlv.indexStop else none
    isMultivalue := false }

/-- There is no end of a range without its start. -/
def RangeHasStart (tlv : PbbTlv) : Prop := tlv.indexStop.isSome → tlv.indexStart.isSome

instance (tlv : PbbTlv) : Decidable tlv.RangeHasStart :=
  inferInstanceAs (Decidable (tlv.indexStop.isSome → tlv.indexStart.isSome))

/-- The value has a length of 16 bits. -/
def ShortValue (tlv : PbbTlv) : Prop := ∀ v ∈ tlv.value, v.length < 65536

/-- No field of the TLV is lost. -/
structure Kept (tlv : PbbTlv) : Prop where
  range : tlv.RangeHasStart
  single : tlv.isMultivalue = false
  short : tlv.ShortValue

@[simp] theorem received_eqv (tlv : PbbTlv) : tlv.received.eqv tlv = true := by
  simp [eqv, received]

theorem Kept.received_eq (h : tlv.Kept) : tlv.received = tlv := by
  have hstop : (if tlv.indexStart.isSome then tlv.indexStop else none) = tlv.indexStop := by
    split
    · rfl
    · next hstart =>
      exact (Option.not_isSome_iff_eq_none.mp fun hstop => hstart (h.range hstop)).symm
  rw [received, hstop, ← h.single]

theorem flagsOf_spec : ∀ typeExt indexStart indexStop value extLen multivalue : Bool,
    let flags := flagsOf typeExt indexStart indexStop value extLen multivalue
    decide (flags &&& 0x80 ≠ 0) = typeExt ∧
      decide (flags &&& 0x20 ≠ 0) = (indexStart && indexStop) ∧
      decide (flags &&& 0x40 ≠ 0) = (indexStart && !indexStop) ∧
      decide (flags &&& 0x10 ≠ 0) = value ∧
      decide (flags &&& 0x08 ≠ 0) = (value && extLen) := by
  decide

theorem reads_value {v : List Byte} {flags : Byte} (hv : v.length < 65536)
    (hflags : decide (flags &&& 0x08 ≠ 0) = decide (255 < v.length)) :
    Reads (readValue flags) (valueBytes v) v := by
  refine Reads.bind ?_ (reads_raw v)
  rw [readLength]
  by_cases hlong : 255 < v.length
  · rw [if_pos (of_decide_eq_true (hflags.trans (decide_eq_true hlong))), if_pos hlong]
    have hread := (reads_get (k := 2) (ofNat 16 v.length) (ε := Failure)).map
      (f := fun x => x.toNat)
    rwa [toNat_ofNat, Nat.mod_eq_of_lt hv] at hread
  · rw [if_neg (of_decide_eq_false (hflags.trans (decide_eq_false hlong))), if_neg hlong]
    have hread := (reads_byte (ofNat 8 v.length) (ε := Failure)).map (f := fun x => x.toNat)
    rwa [toNat_ofNat, Nat.mod_eq_of_lt (Nat.lt_succ_of_le (not_lt.mp hlong))] at hread

theorem reads_indices {flags : Byte}
    (hmulti : decide (flags &&& 0x20 ≠ 0) = (tlv.indexStart.isSome && tlv.indexStop.isSome))
    (hsingle : decide (flags &&& 0x40 ≠ 0) = (tlv.indexStart.isSome && !tlv.indexStop.isSome)) :
    Reads (readIndices flags) tlv.indexBytes (tlv.indexStart, tlv.received.indexStop) := by
  have hbyte : ∀ o : Option Byte, Reads (readIf o.isSome (byte : Parser Byte)) o.toList o := by
    intro o
    have h := reads_readIf (x := (byte : Parser Byte)) (fun b => [b]) (o := o) fun b _ => reads_byte b
    rwa [flatMap_singleton'] at h
  rw [readIndices]
  rcases tlv with ⟨type, typeExt, _ | start, stop, isMultivalue, value⟩
  · rw [if_neg (of_decide_eq_false hmulti), hsingle]
    exact (hbyte none).map
  · cases stop with
    | none =>
      rw [if_neg (of_decide_eq_false hmulti), hsingle]
      exact (hbyte (some start)).map
    | some stop =>
      rw [if_pos (of_decide_eq_true hmulti)]
      exact (reads_byte start).bind (reads_byte stop).map

theorem reads_serialize (h : tlv.ShortValue) : Reads deserialize tlv.serialize tlv.received := by
  obtain ⟨hext, hmulti, hsingle, hval, hlong⟩ := flagsOf_spec tlv.typeExt.isSome
    tlv.indexStart.isSome tlv.indexStop.isSome tlv.value.isSome
    (decide (255 < (tlv.value.getD []).length)) tlv.isMultivalue
  refine (reads_byte tlv.type).bind ((reads_byte tlv.flags).bind ?_)
  have hreadExt := reads_readIf (x := (byte : Parser Byte)) (fun b => [b]) (o := tlv.typeExt)
    fun b _ => reads_byte b
  rw [flatMap_singleton'] at hreadExt
  have hreadValue := reads_readIf (x := readValue tlv.flags) valueBytes (o := tlv.value) fun v hv => by
      have hsome : tlv.value = some v := hv
      have hextLen : (tlv.value.isSome && decide (255 < (tlv.value.getD []).length)) =
          decide (255 < v.length) := by
        rw [hsome]
        rfl
      exact reads_value (h v hv) (hlong.trans hextLen)
  have hindices : Reads (readIndices tlv.flags) tlv.indexBytes
      (tlv.indexStart, tlv.received.indexStop) := reads_indices hmulti hsingle
  rw [show tlv.typeExt.isSome = decide (tlv.flags &&& 0x80 ≠ 0) from hext.symm] at hreadExt
  rw [show tlv.value.isSome = decide (tlv.flags &&& 0x10 ≠ 0) from hval.symm] at hreadValue
  exact hreadExt.bind (hindices.bind hreadValue.map)

theorem raw_length {n : Nat} {w : List Byte} (h : (raw n : Parser _) s = .ok (w, t)) :
    w.length = n := by
  unfold raw at h
  split at h
  · next hle =>
    cases h
    exact length_take_of_le hle
  · cases h

theorem readValue_length {flags : Byte} {v : List Byte} (h : readValue flags s = .ok (v, t)) :
    v.length < 65536 := by
  obtain ⟨n, u, hn, hv⟩ := bind_eq_ok.mp h
  rw [raw_length hv]
  rw [readLength] at hn
  split at hn
  · obtain ⟨len, _, -, hlen⟩ := bind_eq_ok.mp hn
    cases hlen
    exact len.isLt
  · obtain ⟨len, _, -, hlen⟩ := bind_eq_ok.mp hn
    cases hlen
    exact len.isLt.trans (by decide)

theorem kept_of_deserialize (h : deserialize s = .ok (tlv, t)) : tlv.Kept := by
  obtain ⟨type, _, -, h⟩ := bind_eq_ok.mp h
  obtain ⟨flags, _, -, h⟩ := bind_eq_ok.mp h
  obtain ⟨typeExt, _, -, h⟩ := bind_eq_ok.mp h
  obtain ⟨indices, _, hindices, h⟩ := bind_eq_ok.mp h
  obtain ⟨value, _, hval, h⟩ := bind_eq_ok.mp h
  cases h
  refine ⟨?_, rfl, ?_⟩
  · rw [readIndices] at hindices
    split at hindices
    · obtain ⟨start, _, -, hindices⟩ := bind_eq_ok.mp hindices
      obtain ⟨stop, _, -, hindices⟩ := bind_eq_ok.mp hindices
      cases hindices
      exact fun _ => rfl
    · obtain ⟨start, _, -, hindices⟩ := bind_eq_ok.mp hindices
      cases hindices
      exact fun hstop => Bool.noConfusion hstop
  · intro v hv
    obtain rfl : value = some v := hv
    unfold readIf at hval
    split at hval
    · obtain ⟨v', _, hv', hval⟩ := bind_eq_ok.mp hval
      cases hval
      exact readValue_length hv'
    · cases hval

theorem length_indexBytes (tlv : PbbTlv) :
    tlv.indexStart.toList.length + tlv.indexStop.toList.length =
      tlv.indexBytes.length + if tlv.indexStart.isSome then 0 else tlv.indexStop.toList.length := by
  rcases tlv with ⟨type, typeExt, _ | start, stop, isMultivalue, value⟩
  · rfl
  · exact add_comm 1 _

theorem length_valueBytes (v : List Byte) : (valueBytes v).length = lengthSize v + v.length := by
  rw [valueBytes, length_append, lengthSize]
  split
  · rw [length_put]
  · rfl

/-- The size that is announced counts the end of a range also when it is not written. -/
theorem getSerializedSize_eq (tlv : PbbTlv) : tlv.getSerializedSize = tlv.serialize.length +
      if tlv.indexStart.isSome then 0 else tlv.indexStop.toList.length := by
  have hval : (match tlv.value with
      | none => 0
      | some v => lengthSize v + v.length) = (tlv.value.toList.flatMap valueBytes).length := by
    cases tlv.value with
    | none => rfl
    | some v => rw [Option.toList_some, flatMap_singleton, length_valueBytes]
  have hindices := length_indexBytes tlv
  rw [getSerializedSize, hval, serialize]
  simp only [length_append, length_singleton]
  omega

theorem getSerializedSize_of_range (h : tlv.RangeHasStart) :
    tlv.getSerializedSize = tlv.serialize.length := by
  rw [getSerializedSize_eq]
  split
  · rfl
  · next hstart =>
    rw [Option.not_isSome_iff_eq_none.mp fun hstop => hstart (h hstop)]
    rfl

theorem getSerializedSize_of_not (h : ¬tlv.RangeHasStart) :
    tlv.getSerializedSize = tlv.serialize.length + 1 := by
  obtain ⟨hstop, hstart⟩ := Classical.not_imp.mp h
  rw [getSerializedSize_eq, if_neg hstart]
  obtain ⟨stop, hstop⟩ := Option.isSome_iff_exists.mp hstop
  rw [hstop]
  rfl

theorem length_toList_le {α : Type} (o : Option α) : o.toList.length ≤ 1 := by
  cases o with
  | none => exact Nat.zero_le 1
  | some a => exact Nat.le_refl 1

theorem length_serialize_le (h : tlv.ShortValue) : tlv.serialize.length ≤ 65542 := by
  have hsize := getSerializedSize_eq tlv
  have hext := length_toList_le tlv.typeExt
  have hstart := length_toList_le tlv.indexStart
  have hstop := length_toList_le tlv.indexStop
  have hval : (match tlv.value with
      | none => 0
      | some v => lengthSize v + v.length) ≤ 65537 := by
    cases hv : tlv.value with
    | none => exact Nat.zero_le _
    | some v =>
      have hlt := h v hv
      have hlen : lengthSize v ≤ 2 := by
        rw [lengthSize]
        split <;> decide
      show lengthSize v + v.length ≤ 65537
      omega
  rw [getSerializedSize] at hsize
  omega

end PbbTlv

/-! ## 3. A block is read back -/

theorem two_le_length_serialize (tlv : PbbTlv) : 2 ≤ tlv.serialize.length := by
  rw [PbbTlv.serialize, length_append, length_append]
  exact Nat.add_le_add_left (Nat.le_add_right 1 _) 1

/-- The bytes of a TLV. -/
def tlvImage (tlv : PbbTlv) : Image := block tlv.serialize

theorem block_flatMap (tlvs : List PbbTlv) :
    block (tlvs.flatMap PbbTlv.serialize) = tlvs.flatMap tlvImage := by
  rw [block, map_flatMap]
  rfl

/-- All TLVs but the last one have fewer bytes than the size says, which is cut to 16 bits. -/
def SizeReaches (tlvs : List PbbTlv) : Prop :=
  Reaches tlvImage tlvs ((tlvs.flatMap PbbTlv.serialize).length % 65536)

theorem sizeReaches_of_lt (h : (tlvs.flatMap PbbTlv.serialize).length < 65536) :
    SizeReaches tlvs := by
  rw [SizeReaches, Nat.mod_eq_of_lt h]
  refine reaches_of_eq (fun tlv _ => ?_) ?_
  · rw [tlvImage, length_block]
    exact Nat.zero_lt_of_lt (two_le_length_serialize tlv)
  · rw [← block_flatMap, length_block]

theorem length_le_length_bytes (tlvs : List PbbTlv) :
    tlvs.length * 2 ≤ (tlvs.flatMap PbbTlv.serialize).length := by
  induction tlvs with
  | nil => exact Nat.zero_le _
  | cons tlv tlvs ih =>
    have := two_le_length_serialize tlv
    rw [flatMap_cons, length_append, length_cons]
    omega

theorem length_le_of_sizeReaches (h : SizeReaches tlvs) :
    tlvs.length ≤ (tlvs.flatMap PbbTlv.serialize).length % 65536 := by
  rcases eq_nil_or_concat tlvs with rfl | ⟨init, last, rfl⟩
  · exact Nat.zero_le _
  · have hlast := h init last concat_eq_append
    have hinit := length_le_length_bytes init
    rw [← block_flatMap, length_block] at hlast
    rw [concat_eq_append, length_append, length_singleton]
    rw [concat_eq_append] at hlast
    omega

theorem loads_size (n : Nat) : Loads (get 2 : Parser _) (block (put (k := 2) (ofNat 16 n)))
    (ofNat 16 n) := by
  intro memory h
  rw [fills_block h]
  exact reads_get (k := 2) (ofNat 16 n)

theorem block_append (v w : List Byte) : block (v ++ w) = block v ++ block w := map_append

theorem loads_block (hshort : ∀ tlv ∈ tlvs, tlv.ShortValue) (hreaches : SizeReaches tlvs) :
    Loads deserializeBlock (block (serializeBlock tlvs)) (tlvs.map PbbTlv.received) := by
  rw [serializeBlock, block_append, block_flatMap]
  refine (loads_size _).bind ?_
  have hitems : ∀ tlv ∈ tlvs, Loads PbbTlv.deserialize (tlvImage tlv) tlv.received := by
    intro tlv htlv memory h
    rw [fills_block h]
    exact PbbTlv.reads_serialize (hshort tlv htlv)
  rw [toNat_ofNat]
  refine loads_upTo hitems hreaches ?_ (length_le_of_sizeReaches hreaches)
  rw [← block_flatMap, length_block]
  exact Nat.mod_le _ _

theorem good_of_block {r : List PbbTlv}
    (h : deserializeBlock (serializeBlock tlvs ++ s) = .ok (r, t))
    (heqv : List.Forall₂ (fun a b => PbbTlv.eqv a b = true) r tlvs) :
    (∀ tlv ∈ tlvs, tlv.ShortValue) ∧ SizeReaches tlvs := by
  have hsize := loads_size (tlvs.flatMap PbbTlv.serialize).length _ (fills_block_self _)
    (tlvs.flatMap PbbTlv.serialize ++ s)
  rw [serializeBlock, append_assoc, deserializeBlock, bind_apply, hsize] at h
  rw [SizeReaches, ← toNat_ofNat (w := 16)]
  refine good_of_upTo PbbTlv.received PbbTlv.ShortValue
    (fun tlv _ hshort memory hfills => ?_) (fun tlv _ memory s' a t' _ hread hab => ?_)
    ?_ h heqv
  · rw [fills_block hfills]
    exact PbbTlv.reads_serialize hshort
  · simp only [PbbTlv.eqv, Bool.and_eq_true, decide_eq_true_eq] at hab
    exact fun v hv => (PbbTlv.kept_of_deserialize hread).short v (hab.2.symm ▸ hv)
  · rw [← block_flatMap]
    exact fills_block_self _

theorem kept_of_block {r : List PbbTlv} (h : deserializeBlock s = .ok (r, t)) :
    ∀ tlv ∈ r, tlv.Kept := by
  obtain ⟨size, u, -, h⟩ := bind_eq_ok.mp h
  exact forall_of_upTo (fun _ _ _ => PbbTlv.kept_of_deserialize) h

/-- The ranges that have an end and no start. -/
def openRanges (tlvs : List PbbTlv) : Nat := tlvs.countP fun tlv => ¬tlv.RangeHasStart

theorem openRanges_eq_zero : openRanges tlvs = 0 ↔ ∀ tlv ∈ tlvs, tlv.RangeHasStart := by
  rw [openRanges, countP_eq_zero]
  simp

/-- What is announced is what is written, and a byte for each range without a start. -/
theorem sum_getSerializedSize (tlvs : List PbbTlv) : (tlvs.map PbbTlv.getSerializedSize).sum =
      (tlvs.flatMap PbbTlv.serialize).length + openRanges tlvs := by
  induction tlvs with
  | nil => rfl
  | cons tlv tlvs ih =>
    rw [map_cons, sum_cons, ih, flatMap_cons, length_append]
    by_cases h : tlv.RangeHasStart
    · have hcount : openRanges (tlv :: tlvs) = openRanges tlvs := by
        simp [openRanges, h]
      rw [PbbTlv.getSerializedSize_of_range h, hcount, add_assoc]
    · have hcount : openRanges (tlv :: tlvs) = openRanges tlvs + 1 := by
        simp [openRanges, h]
      rw [PbbTlv.getSerializedSize_of_not h, hcount]
      omega

theorem length_serializeBlock (tlvs : List PbbTlv) :
    (serializeBlock tlvs).length = 2 + (tlvs.flatMap PbbTlv.serialize).length := by
  rw [serializeBlock, length_append, length_put]

/-- A block whose size reaches its last TLV is short, when the values are. -/
theorem length_lt_of_sizeReaches (hshort : ∀ tlv ∈ tlvs, tlv.ShortValue) (h : SizeReaches tlvs) :
    (tlvs.flatMap PbbTlv.serialize).length < 140000 := by
  rcases eq_nil_or_concat tlvs with rfl | ⟨init, last, rfl⟩
  · exact Nat.zero_lt_succ _
  · have hinit := h init last concat_eq_append
    have hlast := PbbTlv.length_serialize_le (hshort last (by simp))
    rw [← block_flatMap, length_block, concat_eq_append] at hinit
    rw [concat_eq_append, flatMap_append, flatMap_singleton, length_append]
    omega

end MoeJit.PacketBB
