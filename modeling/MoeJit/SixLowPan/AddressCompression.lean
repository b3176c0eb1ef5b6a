import MoeJit.SixLowPan.Iphc
import MoeJit.SixLowPan.Ipv6Address

/-!
# Addresses in the IPHC header

An address is sent without what the other end knows: the link-layer address, or the prefix of a
context that both ends have. Without a context it is put together again as it was. With a context, a
unicast address is when it begins with the prefix, and none of the bits is set that are cleared on
one of the ways (`Restorable`); a multicast address is when ten bytes follow the header, which are
lost.
-/

namespace MoeJit.SixLowPan

open Bytes ByteReader Ipv6Address List
open BitVec (and_allOnes and_zero not_allOnes zero_and zero_or)

/-! ## 1. Model -/

structure ContextEntry where
  contextPrefix : Ipv6Prefix
  compressionAllowed : Bool
  validLifetime : Int

abbrev ContextTable := Fin 16 → Option ContextEntry

/-- The first of the contexts that are allowed and valid, with the prefix looked for. -/
def findContext (table : ContextTable) (now : Int) (matching : Ipv6Prefix → Bool) :
    Option (Fin 16 × ContextEntry) :=
  (List.finRange 16).findSome? fun contextId => do
    let entry ← table contextId
    if entry.compressionAllowed ∧ entry.validLifetime > now ∧ matching entry.contextPrefix then
      return (contextId, entry)
    else none

def findUnicastCompressionContext (table : ContextTable) (now : Int) (address : Ipv6Address) :
    Option (Fin 16 × ContextEntry) :=
  findContext table now fun p => address.HasPrefix p

/-- The length and eight bytes of the prefix are in the address. -/
def CarriesPrefix (address : Ipv6Address) (p : Ipv6Prefix) : Prop :=
  p.length ≤ 64 ∧ address 3 = BitVec.ofNat 8 p.length ∧
    ∀ i : Fin 8, address (Fin.ofNat 16 (i.val + 4)) = p.bytes (Fin.ofNat 16 i.val)

instance (address : Ipv6Address) (p : Ipv6Prefix) : Decidable (CarriesPrefix address p) :=
  inferInstanceAs (Decidable (_ ∧ _ ∧ _))

def findMulticastCompressionContext (table : ContextTable) (now : Int) (address : Ipv6Address) :
    Option (Fin 16 × ContextEntry) :=
  findContext table now fun p => CarriesPrefix address p

def cleanPrefix (address : Ipv6Address) (p : Ipv6Prefix) : Ipv6Address := fun i =>
  if i.val < p.length / 8 then 0#8
  else if i.val = p.length / 8 ∧ p.length % 8 ≠ 0 then
    address i &&& ((1#8 <<< (p.length % 8)) - 1)
  else address i

/-- The bytes of the prefix take the place of those of the address. -/
def overridePrefix (p : Ipv6Prefix) (address : Ipv6Address) : Ipv6Address := fun i =>
  if i.val < p.length / 8 then p.bytes i
  else if i.val = p.length / 8 ∧ p.length % 8 ≠ 0 then
    let addressBitMask := (1#8 <<< (8 - p.length % 8)) - 1
    (p.bytes i &&& ~~~addressBitMask) ||| (address i &&& addressBitMask)
  else address i

/-- How an address is sent. -/
structure Encoding where
  stateful : Bool
  contextId : Fin 16 := 0
  mode : HeaderCompression
  inlinePart : List Byte
  deriving DecidableEq

/-- `0000:00ff:fe00` in front of the last two bytes. -/
def middleByte (i : Fin 16) : Byte := if i.val = 11 then 0xff else if i.val = 12 then 0xfe else 0

/-- There is no result when the address that is made of the link-layer address is `::`. -/
def compressStateful (mac : MacAddress) (contextId : Fin 16) (p : Ipv6Prefix)
    (address : Ipv6Address) : Option Encoding := do
  let made ← Ipv6Address.makeAutoconfiguredAddress mac p
  if made = address then
    return { stateful := true, contextId, mode := .compr0, inlinePart := [] }
  else
    let cleaned := cleanPrefix address p
    if ∀ i : Fin 16, 8 ≤ i.val → i.val < 14 → cleaned i = middleByte i then
      return { stateful := true, contextId, mode := .compr16, inlinePart := cleaned.part 14 2 }
    else
      return { stateful := true, contextId, mode := .compr64, inlinePart := cleaned.part 8 8 }

/-- The bytes in front of the last two of `fe80::ff:fe00:1`. -/
def checkerByte (i : Fin 16) : Byte :=
  if i.val < 8 then Ipv6Address.linkLocalByte i else middleByte i

def compressStateless (mac : MacAddress) (address : Ipv6Address) : Encoding :=
  if address = Ipv6Address.makeAutoconfiguredLinkLocalAddress mac then
    { stateful := false, mode := .compr0, inlinePart := [] }
  else if ∀ i : Fin 16, i.val < 14 → address i = checkerByte i then
    { stateful := false, mode := .compr16, inlinePart := address.part 14 2 }
  else if address.IsLinkLocal then
    { stateful := false, mode := .compr64, inlinePart := address.part 8 8 }
  else { stateful := false, mode := .inline, inlinePart := address.part 0 16 }

def compressUnicast (table : ContextTable) (now : Int) (mac : MacAddress)
    (address : Ipv6Address) : Option Encoding :=
  match findUnicastCompressionContext table now address with
  | some (contextId, entry) => compressStateful mac contextId entry.contextPrefix address
  | none => some (compressStateless mac address)

/-- `::` is sent as if a context were used. -/
def compressSource (table : ContextTable) (now : Int) (mac : MacAddress) (address : Ipv6Address) :
    Option Encoding :=
  if address = Ipv6Address.any then some { stateful := true, mode := .inline, inlinePart := [] }
  else compressUnicast table now mac address

/-- With a context, six bytes are set of the sixteen that are written. The others are what `memory`
has in their place. -/
def compressMulticast (memory : Fin 10 → Byte) (table : ContextTable) (now : Int)
    (address : Ipv6Address) : Encoding :=
  match findMulticastCompressionContext table now address with
  | some (contextId, _) =>
    { stateful := true, contextId, mode := .inline
      inlinePart := address.part 1 2 ++ (address.part 12 4 ++ List.ofFn memory) }
  | none =>
    if address 1 = 0x02 ∧ ∀ i : Fin 16, 2 ≤ i.val → i.val < 15 → address i = 0 then
      { stateful := false, mode := .compr0, inlinePart := address.part 15 1 }
    else if ∀ i : Fin 16, 2 ≤ i.val → i.val < 13 → address i = 0 then
      { stateful := false, mode := .compr16, inlinePart := address.part 1 1 ++ address.part 13 3 }
    else if ∀ i : Fin 16, 2 ≤ i.val → i.val < 11 → address i = 0 then
      { stateful := false, mode := .compr64, inlinePart := address.part 1 1 ++ address.part 11 5 }
    else { stateful := false, mode := .inline, inlinePart := address.part 0 16 }

def compressDestination (memory : Fin 10 → Byte) (table : ContextTable) (now : Int)
    (mac : MacAddress) (address : Ipv6Address) : Option Encoding :=
  if address.IsMulticast then some (compressMulticast memory table now address)
  else compressUnicast table now mac address

/-- The default context is 0, and the ids are not sent when both are. -/
def contextIds (src dst : Fin 16) : Option Byte :=
  if src ≠ 0 ∨ dst ≠ 0 then some ((BitVec.ofNat 8 src.val <<< 4) ||| BitVec.ofNat 8 dst.val)
  else none

namespace SixLowPanIphc

def withAddresses (tf : TrafficFlow) (nextHeader : Option Byte) (hlim : Hlim) (m : Bool)
    (src dst : Encoding) : SixLowPanIphc where
  tf := tf
  nextHeader := nextHeader
  hlim := hlim
  srcdstContextId := contextIds src.contextId dst.contextId
  sac := src.stateful
  sam := src.mode
  m := m
  dac := dst.stateful
  dam := dst.mode
  srcInlinePart := src.inlinePart
  dstInlinePart := dst.inlinePart

def srcEncoding (h : SixLowPanIphc) : Encoding where
  stateful := h.sac
  contextId := Fin.ofNat 16 (h.srcdstContextId.getD 0 >>> 4).toNat
  mode := h.sam
  inlinePart := h.srcInlinePart

def dstEncoding (h : SixLowPanIphc) : Encoding where
  stateful := h.dac
  contextId := Fin.ofNat 16 (h.srcdstContextId.getD 0 &&& 0xf).toNat
  mode := h.dam
  inlinePart := h.dstInlinePart

end SixLowPanIphc

/-- The part of `CompressLowPanIphc` that sets the addresses. -/
def compressAddresses (memory : Fin 10 → Byte) (table : ContextTable) (now : Int)
    (srcMac dstMac : MacAddress) (tf : TrafficFlow) (nextHeader : Option Byte) (hlim : Hlim)
    (srcAddr dstAddr : Ipv6Address) : Option SixLowPanIphc := do
  let src ← compressSource table now srcMac srcAddr
  let dst ← compressDestination memory table now dstMac dstAddr
  return .withAddresses tf nextHeader hlim dstAddr.IsMulticast src dst

/-- A context that is known and has not expired. -/
def knownContext (table : ContextTable) (now : Int) (contextId : Fin 16) : Option ContextEntry :=
  (table contextId).filter fun entry => ¬entry.validLifetime < now

def decompressStateful (p : Ipv6Prefix) (mac : MacAddress) (mode : HeaderCompression)
    (inlinePart : List Byte) : Ipv6Address :=
  overridePrefix p
    (match mode with
    | .compr64 => Ipv6Address.ofPart 8 inlinePart
    | .compr16 => fun i => if i.val < 14 then middleByte i else Ipv6Address.ofPart 14 inlinePart i
    | _ => Ipv6Address.makeAutoconfiguredLinkLocalAddress mac)

def decompressStateless (mac : MacAddress) (mode : HeaderCompression) (inlinePart : List Byte) :
    Ipv6Address :=
  match mode with
  | .inline => Ipv6Address.ofPart 0 inlinePart
  | .compr64 => fun i =>
    if i.val < 8 then Ipv6Address.linkLocalByte i else Ipv6Address.ofPart 8 inlinePart i
  | .compr16 => fun i => if i.val < 14 then checkerByte i else Ipv6Address.ofPart 14 inlinePart i
  | .compr0 => Ipv6Address.makeAutoconfiguredLinkLocalAddress mac

/-- There is no result when the packet is dropped. -/
def decompressSource (table : ContextTable) (now : Int) (mac : MacAddress) (e : Encoding) :
    Option Ipv6Address :=
  if e.stateful then
    if e.mode = .inline then some Ipv6Address.any
    else (knownContext table now e.contextId).map fun entry =>
      decompressStateful entry.contextPrefix mac e.mode e.inlinePart
  else some (decompressStateless mac e.mode e.inlinePart)

def decompressMulticastStateful (p : Ipv6Prefix) (inlinePart : List Byte) : Ipv6Address := fun i =>
  if i.val = 0 then 0xff
  else if i.val < 3 then Ipv6Address.ofPart 1 inlinePart i
  else if i.val = 3 then BitVec.ofNat 8 p.length
  else if i.val < 12 then p.bytes (Fin.ofNat 16 (i.val - 4))
  else Ipv6Address.ofPart 12 (inlinePart.drop 2) i

def decompressMulticastStateless (mode : HeaderCompression) (inlinePart : List Byte) :
    Ipv6Address :=
  match mode with
  | .inline => Ipv6Address.ofPart 0 inlinePart
  | .compr64 => fun i =>
    if i.val = 0 then 0xff
    else if i.val = 1 then inlinePart.getD 0 0
    else Ipv6Address.ofPart 11 (inlinePart.drop 1) i
  | .compr16 => fun i =>
    if i.val = 0 then 0xff
    else if i.val = 1 then inlinePart.getD 0 0
    else Ipv6Address.ofPart 13 (inlinePart.drop 1) i
  | .compr0 => fun i =>
    if i.val = 0 then 0xff
    else if i.val = 1 then 0x02
    else Ipv6Address.ofPart 15 inlinePart i

/-- The packet may be dropped, and a reserved code is an abort. -/
def decompressDestination (table : ContextTable) (now : Int) (mac : MacAddress) (m : Bool)
    (e : Encoding) : Except Failure (Option Ipv6Address) :=
  if e.stateful then
    if (e.mode = .inline ∧ !m) ∨ (e.mode ≠ .inline ∧ m) then .error .aborted
    else .ok ((knownContext table now e.contextId).map fun entry =>
      if m then decompressMulticastStateful entry.contextPrefix e.inlinePart
      else decompressStateful entry.contextPrefix mac e.mode e.inlinePart)
  else if m then .ok (some (decompressMulticastStateless e.mode e.inlinePart))
  else .ok (some (decompressStateless mac e.mode e.inlinePart))

/-- The part of `DecompressLowPanIphc` that sets the addresses. -/
def decompressAddresses (table : ContextTable) (now : Int) (srcMac dstMac : MacAddress)
    (h : SixLowPanIphc) : Except Failure (Option (Ipv6Address × Ipv6Address)) :=
  match decompressSource table now srcMac h.srcEncoding with
  | none => .ok none
  | some src => do
    let dst ← decompressDestination table now dstMac h.m h.dstEncoding
    return dst.map fun dst => (src, dst)

/-! ## 2. Contexts -/

/-- A context that may be used for the addresses that match its prefix. -/
structure ContextEntry.Usable (now : Int) (matching : Ipv6Prefix → Bool) (entry : ContextEntry) :
    Prop where
  allowed : entry.compressionAllowed = true
  valid : now < entry.validLifetime
  matches_prefix : matching entry.contextPrefix = true

/-- The first context of the table that may be used. -/
structure FirstUsable (table : ContextTable) (now : Int) (matching : Ipv6Prefix → Bool)
    (contextId : Fin 16) (entry : ContextEntry) : Prop where
  present : table contextId = some entry
  usable : entry.Usable now matching
  first : ∀ id < contextId, ∀ e, table id = some e → ¬e.Usable now matching

section Context

variable {table : ContextTable} {now : Int} {matching : Ipv6Prefix → Bool} {contextId : Fin 16}
  {entry : ContextEntry}

theorem findContext_iff : findContext table now matching = some (contextId, entry) ↔
      FirstUsable table now matching contextId entry := by
  have hentry : ∀ (id : Fin 16) (found : Fin 16 × ContextEntry), (do
      let e ← table id
      if e.compressionAllowed ∧ e.validLifetime > now ∧ matching e.contextPrefix then
        return (id, e)
      else none) = some found ↔
      id = found.1 ∧ table id = some found.2 ∧ found.2.Usable now matching := by
    rintro id ⟨id', e⟩
    rw [Option.bind_eq_bind, Option.bind_eq_some_iff]
    constructor
    · rintro ⟨e', he, h⟩
      split at h
      · next hfound =>
        cases h
        exact ⟨rfl, he, hfound.1, hfound.2.1, hfound.2.2⟩
      · cases h
    · rintro ⟨rfl, he, husable⟩
      exact ⟨e, he, if_pos ⟨husable.allowed, husable.valid, husable.matches_prefix⟩⟩
  rw [findContext, findSome?_eq_some_iff]
  constructor
  · rintro ⟨before, id, after, hlist, hfound, hbefore⟩
    obtain ⟨rfl, hpresent, husable⟩ := (hentry id _).mp hfound
    refine ⟨hpresent, husable, fun id' hlt e he husable' => ?_⟩
    have hsorted := pairwise_lt_finRange 16
    rw [hlist, pairwise_append, pairwise_cons] at hsorted
    have hmem : id' ∈ before ++ id :: after := hlist ▸ mem_finRange id'
    rcases mem_append.mp hmem with hmem | hmem
    · cases (hbefore id' hmem).symm.trans ((hentry id' (id', e)).mpr ⟨rfl, he, husable'⟩)
    · rcases mem_cons.mp hmem with rfl | hmem
      · exact absurd hlt (lt_irrefl _)
      · exact absurd hlt (lt_asymm (hsorted.2.1.1 id' hmem))
  · intro h
    obtain ⟨before, after, hlist⟩ := append_of_mem (mem_finRange contextId)
    refine ⟨before, contextId, after, hlist, (hentry _ _).mpr ⟨rfl, h.present, h.usable⟩, ?_⟩
    intro id hid
    have hsorted := pairwise_lt_finRange 16
    rw [hlist, pairwise_append] at hsorted
    have hlt := hsorted.2.2 id hid contextId mem_cons_self
    refine Option.eq_none_iff_forall_ne_some.mpr fun found hfound => ?_
    obtain ⟨-, he, husable⟩ := (hentry id found).mp hfound
    exact h.first id hlt _ he husable

theorem FirstUsable.known (h : FirstUsable table now matching contextId entry) :
    knownContext table now contextId = some entry := by
  rw [knownContext, h.present, Option.filter_some, if_pos]
  exact decide_eq_true (not_lt_of_gt h.usable.valid)

end Context

theorem contextIds_spec : ∀ src dst : Fin 16,
    Fin.ofNat 16 ((contextIds src dst).getD 0 >>> 4).toNat = src ∧
      Fin.ofNat 16 ((contextIds src dst).getD 0 &&& 0xf).toNat = dst := by
  decide

/-! ## 3. Prefixes -/

theorem overridePrefix_apply (p : Ipv6Prefix) (a : Ipv6Address) (i : Fin 16) :
    overridePrefix p a i =
      (p.bytes i &&& ~~~hostMask p.length i) ||| (a i &&& hostMask p.length i) := by
  rw [overridePrefix, hostMask]
  by_cases hlt : i.val < p.length / 8
  · rw [if_pos hlt, if_pos hlt, BitVec.not_zero, and_allOnes, and_zero, BitVec.or_zero]
  · rw [if_neg hlt, if_neg hlt]
    by_cases heq : i.val = p.length / 8
    · rw [if_pos heq]
      by_cases hwhole : p.length % 8 = 0
      · rw [if_neg fun h => h.2 hwhole, hwhole]
        have hall : 1#8 <<< (8 - 0) - 1 = BitVec.allOnes 8 := rfl
        rw [hall, not_allOnes, and_zero, zero_or, and_allOnes]
      · rw [if_pos ⟨heq, hwhole⟩]
    · rw [if_neg heq, if_neg fun h => heq h.1, not_allOnes, and_zero, zero_or, and_allOnes]

variable {p : Ipv6Prefix} {a : Ipv6Address} {mac : MacAddress} {e : Encoding}

theorem overridePrefix_eq_iff {base : Ipv6Address} : overridePrefix p base = a ↔
      a.Begins p ∧ ∀ i, a i &&& hostMask p.length i = base i &&& hostMask p.length i := by
  rw [funext_iff, Begins, ← forall_and]
  refine forall_congr' fun i => ?_
  rw [overridePrefix_apply, eq_masked_iff, and_not_hostMask]

/-- The bits of a byte that are kept when the prefix is cleaned. -/
def cleanMask (length : Nat) (i : Fin 16) : Byte :=
  if i.val < length / 8 then 0#8
  else if i.val = length / 8 ∧ length % 8 ≠ 0 then (1#8 <<< (length % 8)) - 1
  else BitVec.allOnes 8

theorem cleanPrefix_apply (a : Ipv6Address) (p : Ipv6Prefix) (i : Fin 16) :
    cleanPrefix a p i = a i &&& cleanMask p.length i := by
  rw [cleanPrefix, cleanMask]
  split
  · rw [and_zero]
  · split
    · rfl
    · rw [and_allOnes]

/-! ## 4. Addresses without a context -/

theorem ofPart_zero (a : Ipv6Address) : Ipv6Address.ofPart 0 (a.part 0 16) = a :=
  funext fun i => ofPart_part a (Nat.zero_le _) (by omega)

theorem decompressStateless_compressStateless (mac : MacAddress) (a : Ipv6Address) :
    decompressStateless mac (compressStateless mac a).mode
      (compressStateless mac a).inlinePart = a := by
  rw [compressStateless]
  split
  · next hmade => exact hmade.symm
  · split
    · next hchecker =>
      funext i
      rcases lt_or_ge i.val 14 with hlt | hge
      · exact (if_pos hlt).trans (hchecker i hlt).symm
      · exact (if_neg (not_lt.mpr hge)).trans (ofPart_part a hge (by omega))
    · split
      · next hlink =>
        funext i
        rcases lt_or_ge i.val 8 with hlt | hge
        · exact (if_pos hlt).trans (hlink i hlt).symm
        · exact (if_neg (not_lt.mpr hge)).trans (ofPart_part a hge (by omega))
      · exact ofPart_zero a

/-! ## 5. Addresses with a context -/

/-- The bits between the prefix and the last eight bytes are not set, and neither are those that are
cleared with the prefix. -/
structure HostBits (p : Ipv6Prefix) (a : Ipv6Address) : Prop where
  gap : ∀ i : Fin 16, i.val < 8 → a i &&& hostMask p.length i = 0#8
  kept : ∀ i : Fin 16, 8 ≤ i.val → a i &&& hostMask p.length i &&& ~~~cleanMask p.length i = 0#8

/-- What an address that is sent with a context needs to come back. -/
structure Restorable (p : Ipv6Prefix) (mac : MacAddress) (a : Ipv6Address) : Prop where
  made : Ipv6Address.autoconfigured p.bytes mac ≠ Ipv6Address.any
  begins : a.Begins p
  bits : if Ipv6Address.autoconfigured p.bytes mac = a then 9 ≤ p.length else HostBits p a

theorem and_eq_masked_iff {x m c : Byte} : x &&& m = (x &&& c) &&& m ↔ x &&& m &&& ~~~c = 0#8 := by
  simp only [BitVec.eq_of_getLsbD_eq_iff, BitVec.getLsbD_and, BitVec.getLsbD_not,
    BitVec.getLsbD_zero]
  refine forall₂_congr fun i hi => ?_
  rw [decide_eq_true hi]
  cases x.getLsbD i <;> cases m.getLsbD i <;> cases c.getLsbD i <;> simp

/-- What is sent of a cleaned address, in the longer and in the shorter way. -/
theorem overridePrefix_cleaned_iff {base : Ipv6Address}
    (hbase : ∀ i, base i = if i.val < 8 then 0#8 else cleanPrefix a p i) :
    overridePrefix p base = a ↔ a.Begins p ∧ HostBits p a := by
  rw [overridePrefix_eq_iff]
  refine and_congr_right fun _ => ⟨fun h => ⟨fun i hi => ?_, fun i hi => ?_⟩, fun h i => ?_⟩
  · rw [h i, hbase, if_pos hi, zero_and]
  · rw [← and_eq_masked_iff, h i, hbase, if_neg (not_lt.mpr hi), cleanPrefix_apply]
  · rw [hbase]
    split
    · next hlt => rw [h.gap i hlt, zero_and]
    · next hge => rw [cleanPrefix_apply, and_eq_masked_iff.mpr (h.kept i (not_lt.mp hge))]

theorem linkLocal_gap_iff : ∀ length < 129,
    (∀ i : Fin 16, i.val < 8 → Ipv6Address.linkLocalByte i &&& hostMask length i = 0#8) ↔
      9 ≤ length := by
  decide +kernel

/-- An address made of the link-layer address is rebuilt on `fe80::`, of which nothing is left when
the prefix has nine bits or more. -/
theorem overridePrefix_linkLocal_iff :
    overridePrefix p (Ipv6Address.makeAutoconfiguredLinkLocalAddress mac) =
        Ipv6Address.autoconfigured p.bytes mac ↔
      (Ipv6Address.autoconfigured p.bytes mac).Begins p ∧ 9 ≤ p.length := by
  rw [overridePrefix_eq_iff, ← linkLocal_gap_iff p.length (Nat.lt_succ_of_le p.length_le)]
  refine and_congr_right fun _ => ⟨fun h i hi => ?_, fun h i => ?_⟩
  · have hsame := h i
    rw [makeAutoconfiguredLinkLocalAddress, autoconfigured,
      autoconfigured, if_pos hi, if_pos hi, p.compatible] at hsame
    exact hsame.symm
  · rw [makeAutoconfiguredLinkLocalAddress, autoconfigured, autoconfigured]
    split
    · next hlt => exact (p.compatible i).trans (h i hlt).symm
    · rfl

/-- With a context, the address comes back exactly when it is restorable. -/
theorem decompressStateful_iff {contextId : Fin 16}
    (h : compressStateful mac contextId p a = some e) :
    decompressStateful p mac e.mode e.inlinePart = a ↔ Restorable p mac a := by
  obtain ⟨made, hmade, he⟩ := Option.bind_eq_some_iff.mp h
  rw [makeAutoconfiguredAddress] at hmade
  split at hmade
  · cases hmade
  · next hany =>
    cases hmade
    have hbits : Restorable p mac a ↔ a.Begins p ∧
        if autoconfigured p.bytes mac = a then 9 ≤ p.length else HostBits p a :=
      ⟨fun h => ⟨h.begins, h.bits⟩, fun h => ⟨hany, h.1, h.2⟩⟩
    rw [hbits]
    split at he
    · next hsame =>
      cases he
      rw [if_pos hsame, ← hsame]
      exact overridePrefix_linkLocal_iff
    · next hdiffer =>
      rw [if_neg hdiffer]
      simp only at he
      split at he
      · next hmiddle =>
        cases he
        refine overridePrefix_cleaned_iff fun i => ?_
        show (if i.val < 14 then middleByte i else _) = _
        rcases lt_or_ge i.val 14 with hlt | hge
        · rw [if_pos hlt]
          split
          · next hfront =>
            rw [middleByte, if_neg (by omega), if_neg (by omega)]
            rfl
          · next hback => exact (hmiddle i (not_lt.mp hback) hlt).symm
        · rw [if_neg (not_lt.mpr hge), if_neg (by omega)]
          exact ofPart_part _ hge (by omega)
      · cases he
        refine overridePrefix_cleaned_iff fun i => ?_
        show ofPart 8 _ i = _
        split
        · next hfront => exact ofPart_of_lt hfront
        · next hback => exact ofPart_part _ (not_lt.mp hback) (by omega)

/-! ## 6. Unicast addresses -/

/-- The part that is sent of a unicast address. -/
structure Encoding.Unicast (e : Encoding) : Prop where
  size : e.inlinePart.length = SixLowPanIphc.dstSize false e.mode
  inline : e.mode = .inline → e.stateful = false

/-- As many bytes are counted as are written. -/
theorem Encoding.Unicast.room (h : e.Unicast) :
    SixLowPanIphc.dstSize false e.mode -
      SixLowPanIphc.dstSerializedSize false e.stateful e.mode = 0 := by
  cases hmode : e.mode with
  | inline =>
    rw [h.inline hmode]
    rfl
  | compr64 | compr16 | compr0 => rfl

theorem compressStateful_spec {contextId : Fin 16} (h : compressStateful mac contextId p a = some e)
    : e.Unicast ∧ e.stateful = true ∧ e.contextId = contextId ∧ e.mode ≠ .inline := by
  obtain ⟨made, -, he⟩ := Option.bind_eq_some_iff.mp h
  split at he
  · cases he
    exact ⟨⟨rfl, nofun⟩, rfl, rfl, nofun⟩
  · simp only at he
    split at he
    all_goals
      cases he
      exact ⟨⟨length_part _ (by decide), nofun⟩, rfl, rfl, nofun⟩

theorem compressStateless_spec (mac : MacAddress) (a : Ipv6Address) :
    (compressStateless mac a).Unicast ∧ (compressStateless mac a).stateful = false := by
  rw [compressStateless]
  split
  · exact ⟨⟨rfl, nofun⟩, rfl⟩
  · split
    · exact ⟨⟨length_part _ (by decide), nofun⟩, rfl⟩
    · split
      · exact ⟨⟨length_part _ (by decide), nofun⟩, rfl⟩
      · exact ⟨⟨length_part _ (by decide), fun _ => rfl⟩, rfl⟩

theorem compressStateful_isSome_iff (contextId : Fin 16) (a : Ipv6Address) :
    (∃ e, compressStateful mac contextId p a = some e) ↔
      Ipv6Address.autoconfigured p.bytes mac ≠ Ipv6Address.any := by
  rw [compressStateful, makeAutoconfiguredAddress]
  split
  · next hany =>
    refine iff_of_false ?_ (not_not.mpr hany)
    rintro ⟨e, he⟩
    cases he
  · next hany =>
    refine iff_of_true ?_ hany
    rw [Option.bind_eq_bind, Option.bind_some]
    split
    · exact ⟨_, rfl⟩
    · simp only
      split
      · exact ⟨_, rfl⟩
      · exact ⟨_, rfl⟩

/-- An address that no context may be used for, or that is restorable with the first one. -/
def UnicastKept (table : ContextTable) (now : Int) (mac : MacAddress) (a : Ipv6Address) : Prop :=
  ∀ contextId entry, FirstUsable table now (fun p => a.HasPrefix p) contextId entry →
    Restorable entry.contextPrefix mac a

/-- What is rebuilt of a unicast address. -/
def rebuilt (table : ContextTable) (now : Int) (mac : MacAddress) (e : Encoding) :
    Option Ipv6Address :=
  if e.stateful then (knownContext table now e.contextId).map fun entry =>
    decompressStateful entry.contextPrefix mac e.mode e.inlinePart
  else some (decompressStateless mac e.mode e.inlinePart)

theorem unicast_kept_iff {table : ContextTable} {now : Int} :
    (∃ e, compressUnicast table now mac a = some e ∧ rebuilt table now mac e = some a) ↔
      UnicastKept table now mac a := by
  rw [compressUnicast, UnicastKept]
  split
  · next contextId entry hfound =>
    have hfirst := findContext_iff.mp hfound
    have hknown := hfirst.known
    constructor
    · rintro ⟨e, he, hrebuilt⟩ contextId' entry' hfound'
      cases hfound.symm.trans (findContext_iff.mpr hfound')
      obtain ⟨-, hstateful, hid, -⟩ := compressStateful_spec he
      rw [rebuilt, hstateful, if_pos rfl, hid, hknown] at hrebuilt
      exact (decompressStateful_iff he).mp (Option.some.inj hrebuilt)
    · intro h
      have hrestorable := h contextId entry hfirst
      obtain ⟨e, he⟩ := (compressStateful_isSome_iff contextId a).mpr hrestorable.made
      obtain ⟨-, hstateful, hid, -⟩ := compressStateful_spec he
      refine ⟨e, he, ?_⟩
      rw [rebuilt, hstateful, if_pos rfl, hid, hknown]
      exact congrArg some ((decompressStateful_iff he).mpr hrestorable)
  · next hnone =>
    refine iff_of_true ⟨_, rfl, ?_⟩ fun contextId entry hfound => ?_
    · rw [rebuilt, (compressStateless_spec mac a).2, if_neg (by decide)]
      exact congrArg some (decompressStateless_compressStateless mac a)
    · cases hnone.symm.trans (findContext_iff.mpr hfound)

theorem compressUnicast_unicast {table : ContextTable} {now : Int}
    (h : compressUnicast table now mac a = some e) : e.Unicast := by
  rw [compressUnicast] at h
  split at h
  · exact (compressStateful_spec h).1
  · cases h
    exact (compressStateless_spec mac a).1

/-! ## 7. Multicast addresses -/

theorem ofPart_append {l : List Byte} {start count : Nat} {i : Fin 16} (hi : start ≤ i.val)
    (hlt : i.val < start + count) (hend : start + count ≤ 16) :
    Ipv6Address.ofPart start (a.part start count ++ l) i = a i := by
  have hlen := a.length_part hend
  have hpart := ofPart_part a hi hlt
  rw [ofPart, if_pos hi] at hpart ⊢
  rw [getD_eq_getElem?_getD, getElem?_append_left (by omega), ← getD_eq_getElem?_getD, hpart]

theorem decompressMulticastStateful_eq (hm : a.IsMulticast) (hp : CarriesPrefix a p) (l : List Byte)
    : decompressMulticastStateful p (a.part 1 2 ++ (a.part 12 4 ++ l)) = a := by
  have hdrop : (a.part 1 2 ++ (a.part 12 4 ++ l)).drop 2 = a.part 12 4 ++ l :=
    drop_left' (a.length_part (by decide))
  funext i
  rw [decompressMulticastStateful, hdrop]
  split
  · next hzero => exact hm.symm.trans (congrArg a (Fin.ext hzero.symm))
  · split
    · exact ofPart_append (by omega) (by omega) (by decide)
    · split
      · next hthree => exact hp.2.1.symm.trans (congrArg a (Fin.ext hthree.symm))
      · split
        · have hi := hp.2.2 ⟨i.val - 4, by omega⟩
          have hsame : Fin.ofNat 16 (i.val - 4 + 4) = i := Fin.ext (by
            rw [Nat.sub_add_cancel (by omega)]
            exact Nat.mod_eq_of_lt i.isLt)
          rw [hsame] at hi
          exact hi.symm
        · exact ofPart_append (by omega) (by omega) (by decide)

/-- A multicast address that is sent in pieces, its second byte and those at the end. -/
theorem pieces_eq (hm : a.IsMulticast) {start count : Nat} (hend : start + count = 16)
    (hzero : ∀ i : Fin 16, 2 ≤ i.val → i.val < start → a i = 0) (i : Fin 16) :
    (if i.val = 0 then 0xff else if i.val = 1 then a 1
      else Ipv6Address.ofPart start (a.part start count) i) = a i := by
  split
  · next hi => exact hm.symm.trans (congrArg a (Fin.ext hi.symm))
  · split
    · next hi => exact congrArg a (Fin.ext hi.symm)
    · rcases lt_or_ge i.val start with hlt | hge
      · rw [ofPart_of_lt hlt, hzero i (by omega) hlt]
      · exact ofPart_part a hge (by omega)

theorem multicast_spec (memory : Fin 10 → Byte) (table : ContextTable) (now : Int) (hm : a.IsMulticast) :
    let e := compressMulticast memory table now a
    e.inlinePart.length = SixLowPanIphc.dstSize true e.mode ∧
      (e.stateful = true → e.mode = .inline ∧ ∃ entry, knownContext table now e.contextId = some entry ∧
        decompressMulticastStateful entry.contextPrefix e.inlinePart = a) ∧
      (e.stateful = false → decompressMulticastStateless e.mode e.inlinePart = a) := by
  rw [compressMulticast]
  split
  · next contextId entry hfound =>
    have hfirst := findContext_iff.mp hfound
    have hcarries := hfirst.usable.matches_prefix
    refine ⟨?_, fun _ => ⟨rfl, entry, hfirst.known, ?_⟩, nofun⟩
    · rw [length_append, length_append, length_part _ (by decide),
        length_part _ (by decide), length_ofFn]
      rfl
    · exact decompressMulticastStateful_eq hm (of_decide_eq_true hcarries) _
  · split
    · next hall =>
      refine ⟨length_part _ (by decide), nofun, fun _ => funext fun i => ?_⟩
      have h := pieces_eq hm (by decide : 15 + 1 = 16) hall.2 i
      rw [hall.1] at h
      exact h
    · split
      · next hall =>
        refine ⟨?_, nofun, fun _ => funext fun i => ?_⟩
        · rw [length_append, length_part _ (by decide), length_part _ (by decide)]
          rfl
        · exact pieces_eq hm (by decide : 13 + 3 = 16) hall i
      · split
        · next hall =>
          refine ⟨?_, nofun, fun _ => funext fun i => ?_⟩
          · rw [length_append, length_part _ (by decide), length_part _ (by decide)]
            rfl
          · exact pieces_eq hm (by decide : 11 + 5 = 16) hall i
        · exact ⟨length_part _ (by decide), nofun, fun _ => ofPart_zero a⟩

/-! ## 8. Round trips -/

/-- Whatever the other fields of the header and the memory are, both addresses are rebuilt at the
other end, with `packet` behind the header. -/
def AddressesRebuilt (table : ContextTable) (now : Int) (srcMac dstMac : MacAddress)
    (src dst : Ipv6Address) (packet : List Byte) : Prop :=
  ∀ memory tf nextHeader hlim, ∃ h,
    compressAddresses memory table now srcMac dstMac tf nextHeader hlim src dst = some h ∧
      ∃ sent h' rest, h.add packet = .ok ((), sent) ∧ SixLowPanIphc.remove sent = .ok (h', rest) ∧
        decompressAddresses table now srcMac dstMac h' = .ok (some (src, dst))

/-- A multicast address that no context may be used for, or that is written over bytes that are
there. -/
def MulticastKept (table : ContextTable) (now : Int) (a : Ipv6Address) (packet : List Byte) : Prop :=
  ∀ contextId entry, FirstUsable table now (fun p => CarriesPrefix a p) contextId entry →
    10 ≤ packet.length

section RoundTrip

variable {table : ContextTable} {now : Int} {srcMac dstMac : MacAddress} {src dst : Ipv6Address}
  {memory : Fin 10 → Byte} {packet : List Byte}

theorem compressSource_spec (h : compressSource table now srcMac src = some e) :
    e.inlinePart.length = SixLowPanIphc.srcSize e.stateful e.mode := by
  rw [compressSource] at h
  split at h
  · cases h
    rfl
  · obtain ⟨hsize, hinline⟩ := compressUnicast_unicast h
    rw [hsize]
    cases hmode : e.mode with
    | inline =>
      rw [hinline hmode]
      rfl
    | compr64 => rfl
    | compr16 => rfl
    | compr0 => rfl

theorem compressDestination_spec (h : compressDestination memory table now dstMac dst = some e) :
    e.inlinePart.length = SixLowPanIphc.dstSize dst.IsMulticast e.mode := by
  rw [compressDestination] at h
  split at h
  · next hm =>
    cases h
    rw [decide_eq_true hm]
    exact (multicast_spec memory table now hm).1
  · next hm =>
    rw [decide_eq_false hm]
    exact (compressUnicast_unicast h).size

theorem withAddresses_sized {tf : TrafficFlow} {nextHeader : Option Byte} {hlim : Hlim}
    {f : Encoding} (hsrc : compressSource table now srcMac src = some e)
    (hdst : compressDestination memory table now dstMac dst = some f) :
    (SixLowPanIphc.withAddresses tf nextHeader hlim dst.IsMulticast e f).Sized :=
  ⟨compressSource_spec hsrc, compressDestination_spec hdst⟩

theorem decompressAddresses_iff {tf : TrafficFlow} {nextHeader : Option Byte} {hlim : Hlim}
    {m : Bool} {f : Encoding} :
    decompressAddresses table now srcMac dstMac
        (.withAddresses tf nextHeader hlim m e f) = .ok (some (src, dst)) ↔
      decompressSource table now srcMac e = some src ∧
        decompressDestination table now dstMac m f = .ok (some dst) := by
  obtain ⟨hsrcId, hdstId⟩ := contextIds_spec e.contextId f.contextId
  have he : (SixLowPanIphc.withAddresses tf nextHeader hlim m e f).srcEncoding = e := by
    rw [SixLowPanIphc.srcEncoding, SixLowPanIphc.withAddresses, hsrcId]
  have hf : (SixLowPanIphc.withAddresses tf nextHeader hlim m e f).dstEncoding = f := by
    rw [SixLowPanIphc.dstEncoding, SixLowPanIphc.withAddresses, hdstId]
  have hm : (SixLowPanIphc.withAddresses tf nextHeader hlim m e f).m = m := rfl
  rw [decompressAddresses, he, hf, hm]
  cases hs : decompressSource table now srcMac e with
  | none => exact iff_of_false nofun nofun
  | some s =>
    cases hd : decompressDestination table now dstMac m f with
    | error failure => exact iff_of_false nofun nofun
    | ok d =>
      cases d with
      | none => exact iff_of_false nofun nofun
      | some d =>
        constructor
        · intro h
          cases h
          exact ⟨rfl, rfl⟩
        · rintro ⟨hs', hd'⟩
          cases hs'
          cases hd'
          rfl

/-- `::` is always rebuilt, and any other address as a unicast one. -/
theorem source_rebuilt_iff : (∃ e, compressSource table now srcMac src = some e ∧
        decompressSource table now srcMac e = some src) ↔
      src = Ipv6Address.any ∨ UnicastKept table now srcMac src := by
  rw [compressSource]
  split
  · next hany => exact iff_of_true ⟨_, rfl, hany ▸ rfl⟩ (.inl hany)
  · next hany =>
    rw [or_iff_right hany, ← unicast_kept_iff]
    refine exists_congr fun e => and_congr_right fun he => ?_
    have hunicast := compressUnicast_unicast he
    rw [decompressSource, rebuilt]
    split
    · next hstateful =>
      rw [if_neg fun hmode => by rw [hunicast.inline hmode] at hstateful; cases hstateful]
    · rfl

/-- Ten bytes are written and not counted when a context is used. -/
theorem multicast_room_iff : let f := compressMulticast memory table now dst
    SixLowPanIphc.dstSize true f.mode -
        SixLowPanIphc.dstSerializedSize true f.stateful f.mode ≤ packet.length ↔
      MulticastKept table now dst packet := by
  have hnone : ∀ mode, SixLowPanIphc.dstSize true mode -
      SixLowPanIphc.dstSerializedSize true false mode = 0 := by
    intro mode
    cases mode <;> rfl
  rw [compressMulticast, MulticastKept]
  split
  · next contextId entry hfound =>
    exact ⟨fun hroom _ _ _ => hroom, fun h => h contextId entry (findContext_iff.mp hfound)⟩
  · next hfound =>
    refine iff_of_true ?_ fun contextId entry hfirst => ?_
    · split
      · exact (hnone _).le.trans (Nat.zero_le _)
      · split
        · exact (hnone _).le.trans (Nat.zero_le _)
        · split <;> exact (hnone _).le.trans (Nat.zero_le _)
    · cases hfound.symm.trans (findContext_iff.mpr hfirst)

theorem destination_rebuilt_iff (memory : Fin 10 → Byte) (packet : List Byte) :
    (∃ f, compressDestination memory table now dstMac dst = some f ∧
        decompressDestination table now dstMac dst.IsMulticast f = .ok (some dst) ∧
        SixLowPanIphc.dstSize dst.IsMulticast f.mode -
          SixLowPanIphc.dstSerializedSize dst.IsMulticast f.stateful f.mode ≤ packet.length) ↔
      if dst.IsMulticast then MulticastKept table now dst packet
      else UnicastKept table now dstMac dst := by
  rw [compressDestination]
  split
  · next hm =>
    obtain ⟨-, hstateful, hstateless⟩ := multicast_spec memory table now hm
    have hback : decompressDestination table now dstMac (decide dst.IsMulticast)
        (compressMulticast memory table now dst) = .ok (some dst) := by
      rw [decompressDestination, decide_eq_true hm]
      split
      · next h =>
        obtain ⟨hmode, entry, hknown, hback⟩ := hstateful h
        rw [hmode, hknown, if_neg (by decide)]
        exact congrArg (fun a => Except.ok (some a)) hback
      · next h =>
        rw [if_pos rfl]
        exact congrArg (fun a => Except.ok (some a)) (hstateless (Bool.not_eq_true _ |>.mp h))
    rw [decide_eq_true hm] at hback ⊢
    refine Iff.trans ⟨?_, fun hroom => ⟨_, rfl, hback, hroom⟩⟩ multicast_room_iff
    rintro ⟨f, hf, -, hroom⟩
    cases hf
    exact hroom
  · next hm =>
    rw [← unicast_kept_iff]
    refine exists_congr fun e => and_congr_right fun he => ?_
    have hunicast := compressUnicast_unicast he
    rw [decide_eq_false hm, hunicast.room, and_iff_left (Nat.zero_le _), decompressDestination,
      rebuilt]
    split
    · next hstateful =>
      rw [if_neg]
      · exact ⟨Except.ok.inj, congrArg Except.ok⟩
      · rintro (⟨hmode, -⟩ | ⟨-, hfalse⟩)
        · rw [hunicast.inline hmode] at hstateful
          cases hstateful
        · cases hfalse
    · exact ⟨Except.ok.inj, congrArg Except.ok⟩

/-- The two addresses do not depend on each other, nor on the rest of the header. -/
theorem addressesRebuilt_iff_each : AddressesRebuilt table now srcMac dstMac src dst packet ↔
      (∃ e, compressSource table now srcMac src = some e ∧
        decompressSource table now srcMac e = some src) ∧
      ∀ memory, ∃ f, compressDestination memory table now dstMac dst = some f ∧
        decompressDestination table now dstMac dst.IsMulticast f = .ok (some dst) ∧
        SixLowPanIphc.dstSize dst.IsMulticast f.mode -
          SixLowPanIphc.dstSerializedSize dst.IsMulticast f.stateful f.mode ≤ packet.length := by
  have hone : ∀ memory tf nextHeader hlim, (∃ h,
      compressAddresses memory table now srcMac dstMac tf nextHeader hlim src dst = some h ∧
        ∃ sent h' rest, h.add packet = .ok ((), sent) ∧ SixLowPanIphc.remove sent = .ok (h', rest) ∧
          decompressAddresses table now srcMac dstMac h' = .ok (some (src, dst))) ↔
      (∃ e, compressSource table now srcMac src = some e ∧
        decompressSource table now srcMac e = some src) ∧
      ∃ f, compressDestination memory table now dstMac dst = some f ∧
        decompressDestination table now dstMac dst.IsMulticast f = .ok (some dst) ∧
        SixLowPanIphc.dstSize dst.IsMulticast f.mode -
          SixLowPanIphc.dstSerializedSize dst.IsMulticast f.stateful f.mode ≤ packet.length := by
    intro memory tf nextHeader hlim
    constructor
    · rintro ⟨header, hheader, hsent⟩
      obtain ⟨e, hsrc, hheader⟩ := Option.bind_eq_some_iff.mp hheader
      obtain ⟨f, hdst, hheader⟩ := Option.bind_eq_some_iff.mp hheader
      cases hheader
      obtain ⟨hroom, hback⟩ :=
        (SixLowPanIphc.remove_add_iff (withAddresses_sized hsrc hdst) packet _).mp hsent
      obtain ⟨hsrc', hdst'⟩ := decompressAddresses_iff.mp hback
      exact ⟨⟨e, hsrc, hsrc'⟩, f, hdst, hdst', hroom⟩
    · rintro ⟨⟨e, hsrc, hsrc'⟩, f, hdst, hdst', hroom⟩
      refine ⟨.withAddresses tf nextHeader hlim dst.IsMulticast e f, ?_,
        (SixLowPanIphc.remove_add_iff (withAddresses_sized hsrc hdst) packet _).mpr
          ⟨hroom, decompressAddresses_iff.mpr ⟨hsrc', hdst'⟩⟩⟩
      rw [compressAddresses, hsrc, hdst]
      rfl
  constructor
  · intro h
    exact ⟨((hone _ _ _ _).mp (h (fun _ => 0) .elided none .compr1)).1,
      fun memory => ((hone _ _ _ _).mp (h memory .elided none .compr1)).2⟩
  · rintro ⟨hsrc, hdst⟩ memory tf nextHeader hlim
    exact (hone memory tf nextHeader hlim).mpr ⟨hsrc, hdst memory⟩

end RoundTrip

/-- `2001:2::/64`. -/
def samplePrefix : Ipv6Prefix where
  bytes := Ipv6Address.ofPart 0 [0x20, 0x01, 0x00, 0x02]
  length := 64
  length_le := by decide
  compatible := by decide

end MoeJit.SixLowPan
