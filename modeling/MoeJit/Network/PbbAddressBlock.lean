import MoeJit.Network.PbbHeadTail
import MoeJit.Network.PbbTlv

/-!
# Address blocks of PacketBB

The addresses of a block are written without the head and the tail that `GetHeadTail` finds, and the
head and the tail are written once. A block is read back when that tail is one of all addresses
(`TailIsShared`), and its TLVs are (`block_round_trips_iff`). Of equal addresses, what is left between the head
and the tail has a negative length.
-/

namespace MoeJit.PacketBB

open Bytes ByteReader SizedWriter SizedReader List
open BitVec (ofNat toNat_ofNat)

/-! ## 1. Model -/

inductive Family
  | ipv4
  | ipv6
  deriving DecidableEq

/-- `GetAddressLength` of an address block. -/
def Family.addressLength : Family → Nat
  | ipv4 => 4
  | ipv6 => 16

/-- An address as it is serialized. -/
abbrev Address (f : Family) := { bytes : List Byte // bytes.length = f.addressLength }

structure PbbAddressBlock (f : Family) where
  addresses : List (Address f)
  prefixes : List Byte := []
  addressTlvs : List PbbTlv := []
  deriving DecidableEq

def hasZeroTail (tail : List Byte) : Bool := tail.all fun b => b = 0

/-- `AHAS_HEAD`, `AHAS_FULL_TAIL`, `AHAS_ZERO_TAIL`, `AHAS_SINGLE_PRE_LEN` and
`AHAS_MULTI_PRE_LEN`. -/
def addressFlags (head tail zeroTail single multi : Bool) : Byte :=
  (if head then 0x80 else 0) ||| (if tail then if zeroTail then 0x20 else 0x40 else 0) |||
    (if single then 0x10 else if multi then 0x08 else 0)

namespace PbbAddressBlock

variable {f : Family}

def bytes (b : PbbAddressBlock f) : List (List Byte) := b.addresses.map Subtype.val

def headTail (b : PbbAddressBlock f) : HeadTail := PacketBB.headTail f.addressLength b.bytes

/-- What is between the head and the tail. -/
def mid (f : Family) (s : HeadTail) (address : List Byte) : List Byte :=
  (address.drop s.headlen).take (f.addressLength - s.headlen - s.taillen)

def headPart (s : HeadTail) : List Byte :=
  if s.headlen > 0 then BitVec.ofNat 8 s.headlen :: s.head else []

def tailPart (f : Family) (s : HeadTail) : List Byte :=
  if s.taillen > 0 then
    BitVec.ofNat 8 s.taillen ::
      if hasZeroTail (s.tail f.addressLength) then [] else s.tail f.addressLength
  else []

def flags (b : PbbAddressBlock f) : Byte :=
  let s := b.headTail
  addressFlags (s.headlen > 0) (s.taillen > 0) (hasZeroTail (s.tail f.addressLength))
    (b.prefixes.length = 1) (b.prefixes.length > 1)

/-- What is written before the TLVs. Without an address, no flags are written. -/
def addressImage (b : PbbAddressBlock f) : Image :=
  match b.addresses with
  | [] => [some 0, none]
  | [address] =>
    block ([1, if b.prefixes.length = 1 then 0x10 else 0] ++
      (address.val ++ if b.prefixes.length = 1 then b.prefixes else []))
  | addresses =>
    let s := b.headTail
    block ([BitVec.ofNat 8 addresses.length, b.flags] ++ (headPart s ++ (tailPart f s ++
      ((if s.headlen + s.taillen < f.addressLength then b.bytes.flatMap (mid f s) else []) ++
        b.prefixes))))

def serialize (b : PbbAddressBlock f) : Image :=
  b.addressImage ++ block (serializeBlock b.addressTlvs)

/-- What the addresses and prefixes add to the size, where the size of what is between the head and
the tail may be negative. -/
def addressSize (b : PbbAddressBlock f) : Int :=
  match b.addresses with
  | [] => 2
  | [_] => 2 + f.addressLength + b.prefixes.length
  | addresses =>
    let s := b.headTail
    2 + (if s.headlen > 0 then 1 + s.headlen else 0) +
      (if s.taillen > 0 then
        1 + if hasZeroTail (s.tail f.addressLength) then 0 else s.taillen
      else 0) +
      ((f.addressLength : Int) - s.headlen - s.taillen) * addresses.length + b.prefixes.length

/-- The size is added up in 32 bits. -/
def getSerializedSize (b : PbbAddressBlock f) : Nat :=
  ((b.addressSize + blockSerializedSize b.addressTlvs) % 4294967296).toNat

def readHead (flags : Byte) : Parser (List Byte) :=
  if flags &&& 0x80 ≠ 0 then do
    let headlen ← byte
    raw headlen.toNat
  else return []

def readTail (flags : Byte) : Parser (List Byte) :=
  if (flags &&& 0x40) ^^^ (flags &&& 0x20) ≠ 0 then do
    let taillen ← byte
    if flags &&& 0x40 ≠ 0 then raw taillen.toNat else return List.replicate taillen.toNat 0
  else return []

/-- The bytes between the head and the tail, of which there may not be less than none. -/
def readAddress (f : Family) (head tail : List Byte) : Parser (Address f) := do
  let mid ← raw (f.addressLength - head.length - tail.length)
  if h : (head ++ (mid ++ tail)).length = f.addressLength then return ⟨head ++ (mid ++ tail), h⟩
  else throw .invalid

def readPrefixes (flags : Byte) (numaddr : Nat) : Parser (List Byte) :=
  if flags &&& 0x10 ≠ 0 then many byte 1
  else if flags &&& 0x08 ≠ 0 then many byte numaddr
  else return []

def readAddresses (f : Family) : Parser (List (Address f) × List Byte) := do
  let numaddr ← byte
  let flags ← byte
  if numaddr = 0 then return ([], [])
  else do
    let head ← readHead flags
    let tail ← readTail flags
    let addresses ← many (readAddress f head tail) numaddr.toNat
    let prefixes ← readPrefixes flags numaddr.toNat
    return (addresses, prefixes)

def deserialize (f : Family) : Parser (PbbAddressBlock f) := do
  let (addresses, prefixes) ← readAddresses f
  let addressTlvs ← deserializeBlock
  return { addresses, prefixes, addressTlvs }

/-- `operator==`. -/
def eqv (b other : PbbAddressBlock f) : Prop :=
  b.addresses = other.addresses ∧ b.prefixes = other.prefixes ∧
    List.Forall₂ (fun tlv tlv' => PbbTlv.eqv tlv tlv' = true) b.addressTlvs other.addressTlvs

end PbbAddressBlock

/-! ## 2. Addresses are read back -/

namespace PbbAddressBlock

variable {f : Family}

theorem addressLength_lt (f : Family) : f.addressLength < 256 := by
  cases f <;> decide

theorem addressLength_le (f : Family) : f.addressLength ≤ 16 := by
  cases f <;> decide

theorem addressLength_pos (f : Family) : 0 < f.addressLength := by
  cases f <;> decide

theorem addressFlags_spec : ∀ head tail zeroTail single multi : Bool,
    let flags := addressFlags head tail zeroTail single multi
    decide (flags &&& 0x80 ≠ 0) = head ∧ decide ((flags &&& 0x40) ^^^ (flags &&& 0x20) ≠ 0) = tail ∧
      decide (flags &&& 0x40 ≠ 0) = (tail && !zeroTail) ∧
      decide (flags &&& 0x10 ≠ 0) = single ∧
      decide (flags &&& 0x08 ≠ 0) = (!single && multi) := by
  decide

/-- What is read as an address, with the head and the tail of all of them. -/
def rebuilt (s : HeadTail) (address : Address f) : Address f :=
  if h : (s.head ++ (mid f s address.val ++ s.tail f.addressLength)).length = f.addressLength then
    ⟨_, h⟩
  else address

/-- The head and the tail are parts of an address, and fit into one. -/
structure Fits (f : Family) (s : HeadTail) : Prop where
  current : s.bufcur.length = f.addressLength
  fits : s.headlen + s.taillen ≤ f.addressLength

section Reading

variable {s : HeadTail} {flags : Byte}

theorem length_head (hle : s.headlen ≤ s.bufcur.length) : s.head.length = s.headlen :=
  length_take_of_le hle

theorem length_tail (hcur : s.bufcur.length = f.addressLength)
    (hle : s.taillen ≤ f.addressLength) : (s.tail f.addressLength).length = s.taillen := by
  rw [HeadTail.tail, length_drop, hcur]
  exact Nat.sub_sub_self hle

theorem reads_head (hle : s.headlen ≤ s.bufcur.length) (hsmall : s.headlen < 256)
    (hflags : decide (flags &&& 0x80 ≠ 0) = decide (s.headlen > 0)) :
    Reads (readHead flags) (headPart s) s.head := by
  rw [readHead, headPart]
  by_cases hpos : s.headlen > 0
  · rw [if_pos (of_decide_eq_true (hflags.trans (decide_eq_true hpos))), if_pos hpos]
    have hraw : Reads (raw (ofNat 8 s.headlen).toNat : Parser _) s.head s.head := by
      rw [toNat_ofNat, Nat.mod_eq_of_lt hsmall]
      exact length_head hle ▸ reads_raw s.head
    exact (reads_byte (ofNat 8 s.headlen)).bind hraw
  · rw [if_neg (of_decide_eq_false (hflags.trans (decide_eq_false hpos))), if_neg hpos]
    have hnone : s.head = [] := by
      rw [HeadTail.head, Nat.eq_zero_of_not_pos hpos, take_zero]
    rw [hnone]
    exact reads_pure []

theorem reads_tail (hcur : s.bufcur.length = f.addressLength)
    (hle : s.taillen ≤ f.addressLength)
    (htail : decide ((flags &&& 0x40) ^^^ (flags &&& 0x20) ≠ 0) = decide (s.taillen > 0))
    (hfull : decide (flags &&& 0x40 ≠ 0) =
      (decide (s.taillen > 0) && !hasZeroTail (s.tail f.addressLength))) :
    Reads (readTail flags) (tailPart f s) (s.tail f.addressLength) := by
  have hlen := length_tail hcur hle
  have hsmall := hle.trans_lt (addressLength_lt f)
  rw [readTail, tailPart]
  by_cases hpos : s.taillen > 0
  · rw [if_pos (of_decide_eq_true (htail.trans (decide_eq_true hpos))), if_pos hpos]
    have hnat : (ofNat 8 s.taillen).toNat = s.taillen := by
      rw [toNat_ofNat, Nat.mod_eq_of_lt hsmall]
    suffices hrest : Reads (if flags &&& 0x40 ≠ 0 then raw s.taillen
        else return List.replicate s.taillen 0)
        (if hasZeroTail (s.tail f.addressLength) then [] else s.tail f.addressLength)
        (s.tail f.addressLength) from
      (reads_byte (ofNat 8 s.taillen)).bind (hnat.symm ▸ hrest)
    rw [decide_eq_true hpos, Bool.true_and] at hfull
    by_cases hzero : hasZeroTail (s.tail f.addressLength) = true
    · rw [hzero] at hfull
      rw [if_neg (of_decide_eq_false hfull), if_pos hzero]
      have hall : s.tail f.addressLength = List.replicate s.taillen 0 := by
        refine eq_replicate_iff.mpr ⟨hlen, fun b hb => ?_⟩
        exact of_decide_eq_true (all_eq_true.mp hzero b hb)
      rw [hall]
      exact reads_pure _
    · rw [Bool.not_eq_true _ |>.mp hzero] at hfull
      rw [if_pos (of_decide_eq_true hfull), if_neg hzero]
      exact hlen ▸ reads_raw (s.tail f.addressLength)
  · rw [if_neg (of_decide_eq_false (htail.trans (decide_eq_false hpos))), if_neg hpos]
    have hnone : s.tail f.addressLength = [] := by
      rw [HeadTail.tail, Nat.eq_zero_of_not_pos hpos, Nat.sub_zero]
      exact drop_eq_nil_of_le hcur.le
    rw [hnone]
    exact reads_pure []

theorem length_mid (address : Address f) (hfits : s.headlen + s.taillen ≤ f.addressLength) :
    (mid f s address.val).length = f.addressLength - s.headlen - s.taillen := by
  have hlen := address.property
  rw [mid, length_take, length_drop]
  omega

theorem rebuilt_val (hs : Fits f s) (address : Address f) :
    (rebuilt s address).val = s.head ++ (mid f s address.val ++ s.tail f.addressLength) := by
  have hfits := hs.fits
  have hlen : (s.head ++ (mid f s address.val ++ s.tail f.addressLength)).length =
      f.addressLength := by
    rw [length_append, length_append, length_mid address hfits,
      length_head (hs.current ▸ (by omega)), length_tail hs.current (by omega)]
    omega
  rw [rebuilt, dif_pos hlen]

theorem reads_address (hs : Fits f s) (address : Address f) :
    Reads (readAddress f s.head (s.tail f.addressLength)) (mid f s address.val)
      (rebuilt s address) := by
  have hfits := hs.fits
  have hval := rebuilt_val hs address
  have hlen : (s.head ++ (mid f s address.val ++ s.tail f.addressLength)).length =
      f.addressLength := hval ▸ (rebuilt s address).property
  have hmid := length_mid address hfits
  have hcount : f.addressLength - s.head.length - (s.tail f.addressLength).length =
      (mid f s address.val).length := by
    rw [length_head (hs.current ▸ (by omega)), length_tail hs.current (by omega), hmid]
  rw [readAddress, hcount]
  suffices hrest : Reads
      (if h : (s.head ++ (mid f s address.val ++ s.tail f.addressLength)).length = f.addressLength
      then (return ⟨_, h⟩ : Parser (Address f)) else throw .invalid) [] (rebuilt s address) by
    have hread := (reads_raw (mid f s address.val)).bind (f := fun mid =>
      if h : (s.head ++ (mid ++ s.tail f.addressLength)).length = f.addressLength
      then (return ⟨_, h⟩ : Parser (Address f)) else throw .invalid) hrest
    rwa [append_nil] at hread
  rw [dif_pos hlen]
  have heq : rebuilt s address = ⟨_, hlen⟩ := Subtype.ext hval
  rw [heq]
  exact reads_pure _

theorem map_rebuilt_eq_iff {addresses : List (Address f)} (hs : Fits f s)
    (hcur : s.bufcur ∈ addresses.map Subtype.val)
    (hstart : SameStart (addresses.map Subtype.val) s.headlen) :
    addresses.map (rebuilt s) = addresses ↔
      SameEnd f.addressLength (addresses.map Subtype.val) s.taillen := by
  have hfits := hs.fits
  have hback : ∀ address ∈ addresses, rebuilt s address = address ↔
      address.val.drop (f.addressLength - s.taillen) = s.tail f.addressLength := by
    intro address haddr
    have hlen := address.property
    have hhead : s.head = address.val.take s.headlen :=
      hstart _ hcur _ (mem_map_of_mem haddr)
    have hfront : (s.head ++ mid f s address.val).length = f.addressLength - s.taillen := by
      rw [length_append, length_mid address hfits, length_head (hs.current ▸ (by omega))]
      omega
    have hsplit : address.val = (s.head ++ mid f s address.val) ++
        address.val.drop (f.addressLength - s.taillen) := by
      have hmid : mid f s address.val =
          (address.val.take (f.addressLength - s.taillen)).drop s.headlen := by
        rw [mid, drop_take, Nat.sub_right_comm]
      have htake : s.head ++ mid f s address.val =
          address.val.take (f.addressLength - s.taillen) := by
        rw [hhead, hmid, ← min_eq_left (show s.headlen ≤ f.addressLength - s.taillen by omega),
          ← take_take, min_eq_left (by omega), take_append_drop]
      rw [htake, take_append_drop]
    rw [Subtype.ext_iff, rebuilt_val hs, ← append_assoc]
    constructor
    · intro heq
      exact (append_cancel_left (hsplit.symm.trans heq.symm))
    · intro heq
      rw [← heq]
      exact hsplit.symm
  have hmap := map_inj_left (f := rebuilt s) (g := id) (l := addresses)
  rw [map_id] at hmap
  rw [hmap]
  constructor
  · intro hall x hx y hy
    obtain ⟨a, ha, rfl⟩ := mem_map.mp hx
    obtain ⟨b, hb, rfl⟩ := mem_map.mp hy
    exact ((hback a ha).mp (hall a ha)).trans ((hback b hb).mp (hall b hb)).symm
  · intro hend address haddr
    exact (hback address haddr).mpr (hend _ (mem_map_of_mem haddr) _ hcur)

theorem reads_prefixes {prefixes : List Byte} {n : Nat} (hn : 1 < n)
    (hprefixes : prefixes.length = 0 ∨ prefixes.length = 1 ∨ prefixes.length = n)
    (hsingle : decide (flags &&& 0x10 ≠ 0) = decide (prefixes.length = 1))
    (hmulti : decide (flags &&& 0x08 ≠ 0) =
      (!decide (prefixes.length = 1) && decide (prefixes.length > 1))) :
    Reads (readPrefixes flags n) prefixes prefixes := by
  have hread := reads_many (x := (byte : Parser Byte)) (fun b => [b]) id (l := prefixes)
    fun b _ => reads_byte b
  rw [flatMap_singleton', map_id] at hread
  rw [readPrefixes]
  rcases hprefixes with hnone | hone | hall
  · rw [hnone] at hsingle hmulti
    rw [if_neg (of_decide_eq_false hsingle), if_neg (of_decide_eq_false hmulti),
      eq_nil_of_length_eq_zero hnone]
    exact reads_pure []
  · rw [hone] at hsingle hread
    rw [if_pos (of_decide_eq_true hsingle)]
    exact hread
  · have hmore : prefixes.length ≠ 1 := by omega
    rw [decide_eq_false hmore] at hsingle hmulti
    rw [decide_eq_true (show prefixes.length > 1 by omega)] at hmulti
    rw [if_neg (of_decide_eq_false hsingle), if_pos (of_decide_eq_true hmulti), ← hall]
    exact hread

end Reading

/-- The counts that a block may have. -/
structure Counts (b : PbbAddressBlock f) : Prop where
  addresses : b.addresses.length ≤ 255
  prefixes : b.prefixes.length = 0 ∨ b.prefixes.length = 1 ∨
    b.prefixes.length = b.addresses.length

/-- The addresses and prefixes that are read back. -/
def AddressesShared (b : PbbAddressBlock f) : Prop :=
  match b.addresses with
  | [] => b.prefixes = []
  | [_] => True
  | _ => TailIsShared f.addressLength b.bytes

/-- A block of two addresses or more. -/
def Several (b : PbbAddressBlock f) : Prop := 1 < b.addresses.length

variable {b : PbbAddressBlock f}

section

variable (h : b.Several)
include h

theorem addressImage_of_several :
    b.addressImage = block ([ofNat 8 b.addresses.length, b.flags] ++
      (headPart b.headTail ++ (tailPart f b.headTail ++
        ((if b.headTail.headlen + b.headTail.taillen < f.addressLength then
          b.bytes.flatMap (mid f b.headTail) else []) ++ b.prefixes)))) := by
  rcases b with ⟨_ | ⟨x, _ | ⟨y, rest⟩⟩, prefixes, tlvs⟩
  · exact absurd h (Nat.not_lt_zero 1)
  · exact absurd h (Nat.lt_irrefl 1)
  · rfl

theorem addressesShared_of_several :
    b.AddressesShared ↔ TailIsShared f.addressLength b.bytes := by
  rcases b with ⟨_ | ⟨x, _ | ⟨y, rest⟩⟩, prefixes, tlvs⟩
  · exact absurd h (Nat.not_lt_zero 1)
  · exact absurd h (Nat.lt_irrefl 1)
  · exact Iff.rfl

theorem addressSize_of_several :
    b.addressSize = 2 + (if b.headTail.headlen > 0 then 1 + b.headTail.headlen else 0) +
      (if b.headTail.taillen > 0 then
        1 + if hasZeroTail (b.headTail.tail f.addressLength) then 0 else b.headTail.taillen
      else 0) +
      ((f.addressLength : Int) - b.headTail.headlen - b.headTail.taillen) * b.addresses.length +
      b.prefixes.length := by
  rcases b with ⟨_ | ⟨x, _ | ⟨y, rest⟩⟩, prefixes, tlvs⟩
  · exact absurd h (Nat.not_lt_zero 1)
  · exact absurd h (Nat.lt_irrefl 1)
  · rfl

theorem scanned_of_several : Scanned f.addressLength b.bytes b.headTail := by
  refine scanned_headTail (fun hnil => ?_) fun w hw => ?_
  · rw [bytes, map_eq_nil_iff] at hnil
    rw [Several, hnil] at h
    exact absurd h (Nat.not_lt_zero 1)
  · obtain ⟨address, -, rfl⟩ := mem_map.mp hw
    exact address.property

theorem length_bufcur : b.headTail.bufcur.length = f.addressLength := by
  obtain ⟨address, -, heq⟩ := mem_map.mp (scanned_of_several h).current
  rw [← heq]
  exact address.property

theorem headlen_le : b.headTail.headlen ≤ f.addressLength :=
  (scanned_of_several h).head.trans_le sharedStart_le

theorem taillen_le : b.headTail.taillen ≤ f.addressLength := by
  have hscanned := scanned_of_several h
  rcases (headlen_le h).lt_or_eq with hlt | heq
  · have := headlen_add_taillen_lt hscanned hlt
    omega
  · exact (hscanned.whole heq).le

theorem reads_headTail {α : Type}
    {rest : List Byte → List Byte → Parser α} {w : List Byte} {a : α}
    (hrest : Reads (rest b.headTail.head (b.headTail.tail f.addressLength)) w a) :
    Reads (do
      let head ← readHead b.flags
      let tail ← readTail b.flags
      rest head tail) (headPart b.headTail ++ (tailPart f b.headTail ++ w)) a := by
  obtain ⟨hhead, htail, hfull, -, -⟩ := addressFlags_spec (b.headTail.headlen > 0)
    (b.headTail.taillen > 0) (hasZeroTail (b.headTail.tail f.addressLength))
    (b.prefixes.length = 1) (b.prefixes.length > 1)
  have hcur := length_bufcur h
  exact (reads_head (hcur ▸ headlen_le h) ((headlen_le h).trans_lt (addressLength_lt f))
    hhead).bind ((reads_tail hcur (taillen_le h) htail hfull).bind hrest)

theorem count_of_several (hcounts : b.Counts) :
    (ofNat 8 b.addresses.length).toNat = b.addresses.length ∧ ofNat 8 b.addresses.length ≠ 0 := by
  have hcount := hcounts.addresses
  have hnat : (ofNat 8 b.addresses.length).toNat = b.addresses.length := by
    rw [toNat_ofNat]
    omega
  refine ⟨hnat, fun hzero => ?_⟩
  rw [hzero] at hnat
  rw [Several, ← hnat] at h
  exact absurd h (by decide)

/-- The addresses of a block that are not all the same are read, each with the head and the tail. -/
theorem loads_several (hcounts : b.Counts)
    (hdiffer : b.headTail.headlen < f.addressLength) :
    Loads (readAddresses f) b.addressImage
      (b.addresses.map (rebuilt b.headTail), b.prefixes) := by
  obtain ⟨-, -, -, hsingle, hmulti⟩ := addressFlags_spec (b.headTail.headlen > 0)
    (b.headTail.taillen > 0) (hasZeroTail (b.headTail.tail f.addressLength))
    (b.prefixes.length = 1) (b.prefixes.length > 1)
  have hlt := headlen_add_taillen_lt (scanned_of_several h) hdiffer
  have hfits : Fits f b.headTail := ⟨length_bufcur h, hlt.le⟩
  obtain ⟨hnat, hne⟩ := count_of_several h hcounts
  rw [addressImage_of_several h, if_pos hlt]
  intro memory hfills
  rw [fills_block hfills]
  refine (reads_byte _).bind ((reads_byte _).bind ?_)
  rw [if_neg hne, hnat]
  have haddresses := reads_many (fun address => mid f b.headTail address.val) (rebuilt b.headTail)
    (l := b.addresses) fun address _ => reads_address hfits address
  rw [← flatMap_map] at haddresses
  exact reads_headTail h (haddresses.bind (reads_prefixes h hcounts.prefixes hsingle hmulti).map)

end

variable {s t memory : List Byte}

/-- With a head and a tail that are longer than an address, no address is read. -/
theorem readAddress_invalid {head tail : List Byte} {address : Address f}
    (hlong : f.addressLength < head.length + tail.length) :
    readAddress f head tail s ≠ .ok (address, t) := by
  intro h
  obtain ⟨mid, u, -, h⟩ := bind_eq_ok.mp h
  split at h
  · next hlen =>
    rw [length_append, length_append] at hlen
    omega
  · cases h

theorem readAddresses_equal (h : b.Several) (hcounts : b.Counts)
    (hequal : b.headTail.headlen = f.addressLength) {r : List (Address f) × List Byte}
    (hfills : Fills b.addressImage memory) : readAddresses f (memory ++ s) ≠ .ok (r, t) := by
  intro hread
  obtain ⟨hnat, hne⟩ := count_of_several h hcounts
  have htaillen := (scanned_of_several h).whole hequal
  have hpos := addressLength_pos f
  have hcur := length_bufcur h
  obtain ⟨hhead, htail, hfull, -, -⟩ := addressFlags_spec (b.headTail.headlen > 0)
    (b.headTail.taillen > 0) (hasZeroTail (b.headTail.tail f.addressLength))
    (b.prefixes.length = 1) (b.prefixes.length > 1)
  have hreadHead : Reads (readHead b.flags) _ _ := reads_head (hcur ▸ headlen_le h)
    ((headlen_le h).trans_lt (addressLength_lt f)) hhead
  have hreadTail : Reads (readTail b.flags) _ _ := reads_tail hcur (taillen_le h) htail hfull
  rw [addressImage_of_several h, if_neg (by omega)] at hfills
  have hbytes : memory ++ s = [ofNat 8 b.addresses.length] ++ ([b.flags] ++
      (headPart b.headTail ++ (tailPart f b.headTail ++ (b.prefixes ++ s)))) := by
    rw [fills_block hfills]
    simp
  rw [hbytes, readAddresses, (reads_byte _).bind_eq, (reads_byte _).bind_eq, if_neg hne,
    hreadHead.bind_eq, hreadTail.bind_eq, hnat] at hread
  obtain ⟨addresses, u, hmany, -⟩ := bind_eq_ok.mp hread
  obtain ⟨k, hk⟩ := Nat.exists_eq_succ_of_ne_zero (Nat.ne_zero_of_lt h)
  rw [hk] at hmany
  obtain ⟨address, u', haddr, -⟩ := bind_eq_ok.mp hmany
  refine readAddress_invalid ?_ haddr
  rw [length_head (hcur ▸ headlen_le h), length_tail hcur (taillen_le h)]
  omega

theorem loads_none (h : b.addresses = []) :
    Loads (readAddresses f) b.addressImage (([] : List (Address f)), ([] : List Byte)) := by
  have himage : b.addressImage = [some 0, none] := by
    rw [addressImage, h]
  rw [himage]
  intro memory hfills
  obtain ⟨x, rest, hx, hrest, rfl⟩ := forall₂_cons_right_iff.mp hfills
  obtain ⟨y, rest', -, hnil, rfl⟩ := forall₂_cons_right_iff.mp hrest
  cases hnil
  obtain rfl := hx 0 rfl
  exact fun s => rfl

theorem reads_wholeAddress (address : Address f) :
    Reads (readAddress f [] []) address.val address := by
  have hs : Fits f ⟨address.val, address.val, 0, 0⟩ := ⟨address.property, Nat.zero_le _⟩
  have hread := reads_address hs address
  have hmid : mid f ⟨address.val, address.val, 0, 0⟩ address.val = address.val := by
    rw [mid]
    exact take_of_length_le address.property.le
  have htail : HeadTail.tail f.addressLength ⟨address.val, address.val, 0, 0⟩ = [] :=
    drop_eq_nil_of_le address.property.le
  have hrebuilt : rebuilt ⟨address.val, address.val, 0, 0⟩ address = address := by
    refine Subtype.ext ?_
    rw [rebuilt_val hs, htail, hmid, append_nil]
    rfl
  rwa [hmid, htail, hrebuilt] at hread

theorem reads_one (address : Address f) {flags : Byte} {prefixes : List Byte}
    (hhead : readHead flags = pure []) (htail : readTail flags = pure [])
    (hprefixes : Reads (readPrefixes flags 1) prefixes prefixes) :
    Reads (readAddresses f) ([1, flags] ++ (address.val ++ prefixes)) ([address], prefixes) := by
  refine (reads_byte 1).bind ((reads_byte flags).bind ?_)
  rw [if_neg (by decide), hhead, htail]
  have haddresses : Reads (many (readAddress f [] []) 1) address.val [address] := by
    have hread := reads_many Subtype.val id (l := [address]) fun a _ => reads_wholeAddress a
    rwa [flatMap_singleton] at hread
  exact haddresses.bind (f := fun addresses => do
    let prefixes ← readPrefixes flags 1
    return (addresses, prefixes)) hprefixes.map

theorem loads_one (hcounts : b.Counts) {address : Address f} (h : b.addresses = [address]) :
    Loads (readAddresses f) b.addressImage (b.addresses, b.prefixes) := by
  have hprefixes := hcounts.prefixes
  have himage : b.addressImage = block ([1, if b.prefixes.length = 1 then 0x10 else 0] ++
      (address.val ++ if b.prefixes.length = 1 then b.prefixes else [])) := by
    rw [addressImage, h]
  rw [himage, h]
  intro memory hfills
  rw [fills_block hfills]
  by_cases hone : b.prefixes.length = 1
  · rw [if_pos hone, if_pos hone]
    obtain ⟨x, hx⟩ := length_eq_one_iff.mp hone
    refine reads_one address rfl rfl ?_
    rw [hx]
    exact (reads_byte x).bind (reads_pure []).map
  · have hnone : b.prefixes = [] := by
      rw [h] at hprefixes
      exact eq_nil_of_length_eq_zero (hprefixes.resolve_right fun h => hone (h.elim id id))
    rw [if_neg hone, if_neg hone, hnone]
    exact reads_one address rfl rfl (reads_pure [])

theorem headlen_lt_of_shared (h : b.Several) (hshared : b.AddressesShared) :
    b.headTail.headlen < f.addressLength := by
  obtain ⟨before, x, y, after, heq, hlt, -⟩ := (addressesShared_of_several h).mp hshared
  have hle : sharedStart f.addressLength (before ++ [x, y] ++ after) ≤
      sharedStart f.addressLength (before ++ [x, y]) := sharedStart_append_le after
  rw [append_assoc] at hle
  rw [(scanned_of_several h).head, heq]
  exact hle.trans_lt hlt

theorem headlen_add_taillen_lt_of_shared (h : b.Several)
    (hshared : b.AddressesShared) : b.headTail.headlen + b.headTail.taillen < f.addressLength :=
  headlen_add_taillen_lt (scanned_of_several h) (headlen_lt_of_shared h hshared)

theorem loads_addresses (hcounts : b.Counts) (h : b.AddressesShared) :
    Loads (readAddresses f) b.addressImage (b.addresses, b.prefixes) := by
  rcases lt_or_ge 1 b.addresses.length with hseveral | hfew
  · have hscanned := scanned_of_several hseveral
    have hshared := (addressesShared_of_several hseveral).mp h
    have hdiffer := headlen_lt_of_shared hseveral h
    have hlt := headlen_add_taillen_lt hscanned hdiffer
    have hback := (map_rebuilt_eq_iff ⟨length_bufcur hseveral, hlt.le⟩ hscanned.current
      (hscanned.head ▸ sameStart_sharedStart)).mpr
      ((sameEnd_taillen_iff hscanned hdiffer).mpr hshared)
    have hload := loads_several hseveral hcounts hdiffer
    rwa [hback] at hload
  · rcases hb : b.addresses with _ | ⟨address, _ | ⟨other, rest⟩⟩
    · have hprefixes : b.prefixes = [] := by
        rw [AddressesShared, hb] at h
        exact h
      rw [hprefixes]
      exact loads_none hb
    · exact hb ▸ loads_one hcounts hb
    · rw [hb] at hfew
      exact absurd hfew (by simp)

theorem shared_of_readAddresses (hcounts : b.Counts) (hfills : Fills b.addressImage memory)
    (h : readAddresses f (memory ++ s) = .ok ((b.addresses, b.prefixes), t)) :
    b.AddressesShared := by
  rcases lt_or_ge 1 b.addresses.length with hseveral | hfew
  · have hscanned := scanned_of_several hseveral
    rcases (headlen_le hseveral).lt_or_eq with hdiffer | hequal
    · have hload := loads_several hseveral hcounts hdiffer memory hfills s
      rw [hload] at h
      have hback : b.addresses.map (rebuilt b.headTail) = b.addresses :=
        congrArg (fun r => r.1.1) (Except.ok.inj h)
      have hlt := headlen_add_taillen_lt hscanned hdiffer
      refine (addressesShared_of_several hseveral).mpr
        ((sameEnd_taillen_iff hscanned hdiffer).mp ?_)
      exact (map_rebuilt_eq_iff ⟨length_bufcur hseveral, hlt.le⟩ hscanned.current
        (hscanned.head ▸ sameStart_sharedStart)).mp hback
    · exact absurd h (readAddresses_equal hseveral hcounts hequal hfills)
  · rcases hb : b.addresses with _ | ⟨address, _ | ⟨other, rest⟩⟩
    · have hload := loads_none hb memory hfills s
      rw [hload] at h
      have hprefixes : b.prefixes = [] := (congrArg (fun r => r.1.2) (Except.ok.inj h)).symm
      rw [AddressesShared, hb]
      exact hprefixes
    · rw [AddressesShared, hb]
      trivial
    · rw [hb] at hfew
      exact absurd hfew (by simp)

/-! ## 3. Sizes -/

theorem length_headPart (h : b.Several) : (headPart b.headTail).length =
      if b.headTail.headlen > 0 then 1 + b.headTail.headlen else 0 := by
  rw [headPart]
  split
  · rw [length_cons, length_head ((length_bufcur h).symm ▸ headlen_le h), add_comm]
  · rfl

theorem length_tailPart (h : b.Several) : (tailPart f b.headTail).length =
      if b.headTail.taillen > 0 then
        1 + if hasZeroTail (b.headTail.tail f.addressLength) then 0 else b.headTail.taillen
      else 0 := by
  rw [tailPart]
  split
  · rw [length_cons, add_comm]
    split
    · rfl
    · rw [length_tail (length_bufcur h) (taillen_le h)]
  · rfl

theorem length_mids (hlt : b.headTail.headlen + b.headTail.taillen < f.addressLength) :
    (b.bytes.flatMap (mid f b.headTail)).length =
      (f.addressLength - b.headTail.headlen - b.headTail.taillen) * b.addresses.length := by
  have hmid : ∀ w ∈ b.bytes, (mid f b.headTail w).length =
      f.addressLength - b.headTail.headlen - b.headTail.taillen := by
    intro w hw
    obtain ⟨address, -, rfl⟩ := mem_map.mp hw
    exact length_mid address hlt.le
  rw [length_flatMap, map_congr_left hmid, map_const',
    sum_replicate_nat, mul_comm, bytes, length_map]

/-- The addresses and prefixes are written to as many bytes as they are counted as. -/
theorem length_addressImage (hcounts : b.Counts)
    (hshared : b.AddressesShared) : (b.addressImage.length : Int) = b.addressSize := by
  have hprefixes := hcounts.prefixes
  rcases lt_or_ge 1 b.addresses.length with hseveral | hfew
  · have hscanned := scanned_of_several hseveral
    have hlt := headlen_add_taillen_lt_of_shared hseveral hshared
    rw [addressImage_of_several hseveral, addressSize_of_several hseveral, if_pos hlt, length_block]
    simp only [length_append, length_headPart hseveral, length_tailPart hseveral,
      length_mids hlt, length_cons, length_nil]
    have hmid : ((f.addressLength : Int) - b.headTail.headlen - b.headTail.taillen) =
        ((f.addressLength - b.headTail.headlen - b.headTail.taillen : Nat) : Int) := by omega
    rw [hmid]
    push_cast
    split <;> split <;> omega
  · rcases hb : b.addresses with _ | ⟨address, _ | ⟨other, rest⟩⟩
    · rw [addressImage, addressSize, hb]
      rfl
    · rw [hb] at hprefixes
      have hlen := address.property
      have hone : (if b.prefixes.length = 1 then b.prefixes else []).length =
          b.prefixes.length := by
        split
        · rfl
        · next hne => exact (hprefixes.resolve_right fun h => hne (h.elim id id)).symm
      rw [addressImage, addressSize, hb]
      simp only [length_block, length_append, length_cons, length_nil, hone]
      omega
    · rw [hb] at hfew
      exact absurd hfew (by simp)

theorem length_headPart_le (h : b.Several) : (headPart b.headTail).length ≤ 17 := by
  have hle := headlen_le h
  have hmax := addressLength_le f
  rw [length_headPart h]
  split <;> omega

theorem length_tailPart_le (h : b.Several) : (tailPart f b.headTail).length ≤ 17 := by
  have hle := taillen_le h
  have hmax := addressLength_le f
  rw [length_tailPart h]
  split
  · split <;> omega
  · exact Nat.zero_le _

theorem length_addressImage_lt (hcounts : b.Counts)
    (hshared : b.AddressesShared) : b.addressImage.length < 8192 := by
  have haddresses := hcounts.addresses
  have hprefixes : b.prefixes.length ≤ 255 := by
    have := hcounts.prefixes
    omega
  have hmax := addressLength_le f
  rcases lt_or_ge 1 b.addresses.length with hseveral | hfew
  · have hlt := headlen_add_taillen_lt_of_shared hseveral hshared
    have hhead := length_headPart_le hseveral
    have htail := length_tailPart_le hseveral
    have hmid : (f.addressLength - b.headTail.headlen - b.headTail.taillen) * b.addresses.length ≤
        16 * 255 := Nat.mul_le_mul (by omega) haddresses
    rw [addressImage_of_several hseveral, if_pos hlt, length_block]
    simp only [length_append, length_cons, length_nil, length_mids hlt]
    omega
  · have hsize := length_addressImage hcounts hshared
    rcases hb : b.addresses with _ | ⟨address, _ | ⟨other, rest⟩⟩
    · rw [addressImage, hb]
      exact (show 2 < 8192 by decide)
    · rw [addressSize, hb] at hsize
      simp only at hsize
      omega
    · rw [hb] at hfew
      exact absurd hfew (by simp)

/-! ## 4. Round trips -/

/-- The block is written to as many bytes as it says, and an equal block is read from these. -/
def RoundTrips (b : PbbAddressBlock f) : Prop :=
  b.serialize.length = b.getSerializedSize ∧
    ∀ memory, Fills b.serialize memory → ∀ s, ∃ b', deserialize f (memory ++ s) = .ok (b', s) ∧
      b'.eqv b

/-- What a block needs to be read back. -/
structure Readable (b : PbbAddressBlock f) : Prop where
  shared : b.AddressesShared
  ranges : ∀ tlv ∈ b.addressTlvs, tlv.RangeHasStart
  short : ∀ tlv ∈ b.addressTlvs, tlv.ShortValue
  sizeReaches : SizeReaches b.addressTlvs

/-- The TLVs of what is read back. -/
def received (b : PbbAddressBlock f) : PbbAddressBlock f :=
  { b with addressTlvs := b.addressTlvs.map PbbTlv.received }

theorem loads_deserialize (hcounts : b.Counts) (h : b.Readable) :
    Loads (deserialize f) b.serialize b.received :=
  (loads_addresses hcounts h.shared).bind (loads_block h.short h.sizeReaches).map

theorem received_eqv (b : PbbAddressBlock f) : b.received.eqv b := by
  refine ⟨rfl, rfl, ?_⟩
  rw [received, forall₂_map_left_iff]
  exact forall₂_same.mpr fun tlv _ => PbbTlv.received_eqv tlv

/-- An equal block is read back only if the addresses and the TLVs are. -/
theorem readable_of_deserialize {b b' : PbbAddressBlock f} (hcounts : b.Counts)
    (hfills : Fills b.serialize memory) (h : deserialize f (memory ++ s) = .ok (b', t))
    (heqv : b'.eqv b) :
    b.AddressesShared ∧ (∀ tlv ∈ b.addressTlvs, tlv.ShortValue) ∧ SizeReaches b.addressTlvs := by
  obtain ⟨m, m', rfl, hm, hm'⟩ := fills_append hfills
  obtain ⟨⟨addresses, prefixes⟩, u, haddresses, h⟩ := bind_eq_ok.mp h
  obtain ⟨tlvs, u', htlvs, h⟩ := bind_eq_ok.mp h
  cases h
  obtain ⟨rfl, rfl, heqv⟩ := heqv
  rw [append_assoc] at haddresses
  have hshared := shared_of_readAddresses hcounts hm haddresses
  have hload := loads_addresses hcounts hshared m hm (m' ++ s)
  rw [haddresses] at hload
  obtain rfl : u = m' ++ s := congrArg (fun r => r.2) (Except.ok.inj hload)
  rw [fills_block hm'] at htlvs
  exact ⟨hshared, good_of_block htlvs heqv⟩

theorem getSerializedSize_eq (hcounts : b.Counts)
    (hshared : b.AddressesShared) (hshort : ∀ tlv ∈ b.addressTlvs, tlv.ShortValue)
    (hreaches : SizeReaches b.addressTlvs) :
    b.getSerializedSize = b.serialize.length + openRanges b.addressTlvs := by
  have hsize := length_addressImage hcounts hshared
  have hsmall := length_addressImage_lt hcounts hshared
  have htlvs := length_lt_of_sizeReaches hshort hreaches
  have hcount := length_le_length_bytes b.addressTlvs
  have hopen : openRanges b.addressTlvs ≤ b.addressTlvs.length := countP_le_length
  have hsum := sum_getSerializedSize b.addressTlvs
  rw [getSerializedSize, ← hsize, blockSerializedSize, hsum, serialize, length_append,
    length_block, length_serializeBlock]
  omega

/-- A block is read back exactly when its tail is one of all addresses and its TLVs are read back. -/
theorem block_round_trips_iff (b : PbbAddressBlock f) (hcounts : b.Counts) :
    b.RoundTrips ↔ b.Readable := by
  constructor
  · rintro ⟨hsize, hread⟩
    obtain ⟨memory, hfills⟩ := exists_fills b.serialize
    obtain ⟨b', hb', heqv⟩ := hread memory hfills []
    obtain ⟨hshared, hshort, hreaches⟩ := readable_of_deserialize hcounts hfills hb' heqv
    have hopen := getSerializedSize_eq hcounts hshared hshort hreaches
    exact ⟨hshared, openRanges_eq_zero.mp (by omega), hshort, hreaches⟩
  · intro h
    have hopen := getSerializedSize_eq hcounts h.shared h.short h.sizeReaches
    rw [openRanges_eq_zero.mpr h.ranges, Nat.add_zero] at hopen
    exact ⟨hopen.symm, fun memory hfills s =>
      ⟨b.received, loads_deserialize hcounts h memory hfills s, received_eqv b⟩⟩

theorem block_round_trips_of_two_addresses : RoundTrips
    { addresses := [⟨[10, 0, 0, 1], rfl⟩, ⟨[10, 0, 0, 2], rfl⟩], prefixes := [24] : PbbAddressBlock .ipv4 } :=
  (block_round_trips_iff _ ⟨by decide, by decide⟩).mpr
    { shared := ⟨[], [10, 0, 0, 1], [10, 0, 0, 2], [], rfl, by decide, by decide⟩
      ranges := fun _ h => absurd h List.not_mem_nil
      short := fun _ h => absurd h List.not_mem_nil
      sizeReaches := sizeReaches_of_lt (by decide) }

/-- Of 10.0.0.1, 10.1.2.3 and 10.2.3.3, the last two end with the byte 3, which the first one is read
back with. -/
theorem tail_of_last_pair_is_read : ¬∀ b : PbbAddressBlock .ipv4, b.Counts → b.RoundTrips := by
  intro h
  obtain ⟨-, hread⟩ := h { addresses := [⟨[10, 0, 0, 1], rfl⟩, ⟨[10, 1, 2, 3], rfl⟩,
    ⟨[10, 2, 3, 3], rfl⟩] } ⟨by decide, by decide⟩
  obtain ⟨b', hb', haddresses, -⟩ := hread
    [3, 0xC0, 1, 10, 1, 3, 0, 0, 1, 2, 2, 3, 0, 0] (fills_block_self _) []
  cases hb'
  exact absurd haddresses (by decide)

/-! ## 5. Blocks of which nothing is lost -/

/-- No field of the block is lost. -/
structure Kept (b : PbbAddressBlock f) : Prop where
  counts : b.Counts
  shared : b.AddressesShared
  tlvs : ∀ tlv ∈ b.addressTlvs, tlv.Kept
  sizeReaches : SizeReaches b.addressTlvs

theorem Kept.readable (h : b.Kept) : b.Readable where
  shared := h.shared
  ranges tlv htlv := (h.tlvs tlv htlv).range
  short tlv htlv := (h.tlvs tlv htlv).short
  sizeReaches := h.sizeReaches

theorem Kept.loads (h : b.Kept) : Loads (deserialize f) b.serialize b := by
  have hrecv : b.received = b := by
    rw [received, map_congr_left fun tlv htlv => (h.tlvs tlv htlv).received_eq, map_id']
  have hload := loads_deserialize h.counts h.readable
  rwa [hrecv] at hload

theorem Kept.getSerializedSize (h : b.Kept) : b.getSerializedSize = b.serialize.length := by
  have hr := h.readable
  rw [getSerializedSize_eq h.counts h.shared hr.short h.sizeReaches,
    openRanges_eq_zero.mpr hr.ranges, add_zero]

theorem counts_of_readAddresses {r : List (Address f) × List Byte}
    (h : readAddresses f s = .ok (r, t)) :
    r.1.length ≤ 255 ∧ (r.2.length = 0 ∨ r.2.length = 1 ∨ r.2.length = r.1.length) := by
  obtain ⟨numaddr, _, -, h⟩ := bind_eq_ok.mp h
  obtain ⟨flags, _, -, h⟩ := bind_eq_ok.mp h
  split at h
  · cases h
    exact ⟨Nat.zero_le _, .inl rfl⟩
  · obtain ⟨head, _, -, h⟩ := bind_eq_ok.mp h
    obtain ⟨tail, _, -, h⟩ := bind_eq_ok.mp h
    obtain ⟨addresses, _, haddresses, h⟩ := bind_eq_ok.mp h
    obtain ⟨prefixes, _, hprefixes, h⟩ := bind_eq_ok.mp h
    cases h
    have hlen := length_of_many haddresses
    refine ⟨hlen.trans_le (Nat.le_of_lt_succ numaddr.isLt), ?_⟩
    rw [readPrefixes] at hprefixes
    split at hprefixes
    · exact .inr (.inl (length_of_many hprefixes))
    · split at hprefixes
      · exact .inr (.inr ((length_of_many hprefixes).trans hlen.symm))
      · cases hprefixes
        exact .inl rfl

theorem eqv_refl (b : PbbAddressBlock f) : b.eqv b :=
  ⟨rfl, rfl, forall₂_same.mpr fun tlv _ => by simp [PbbTlv.eqv]⟩

theorem kept_of_deserialize (hfills : Fills b.serialize memory)
    (h : deserialize f (memory ++ s) = .ok (b, t)) : b.Kept := by
  have hcounts : b.Counts := by
    obtain ⟨r, _, haddresses, h'⟩ := bind_eq_ok.mp h
    obtain ⟨tlvs, _, -, h'⟩ := bind_eq_ok.mp h'
    cases h'
    obtain ⟨hmost, hprefixes⟩ := counts_of_readAddresses haddresses
    exact ⟨hmost, hprefixes⟩
  obtain ⟨hshared, -, hreaches⟩ := readable_of_deserialize hcounts hfills h b.eqv_refl
  refine ⟨hcounts, hshared, ?_, hreaches⟩
  obtain ⟨r, _, -, h⟩ := bind_eq_ok.mp h
  obtain ⟨tlvs, _, htlvs, h⟩ := bind_eq_ok.mp h
  cases h
  exact kept_of_block htlvs

end PbbAddressBlock

end MoeJit.PacketBB
