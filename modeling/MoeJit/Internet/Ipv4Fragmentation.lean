import MoeJit.Lib.Buckets
import MoeJit.Lib.FallibleRun
import MoeJit.Lib.Pieces
import Mathlib.Data.List.Induction

/-!
# Fragmentation of IPv4 packets

`doFragmentation` cuts a packet to fit an MTU, also one that is a fragment, and `path` sends a packet
over links one after the other. The fragments lie side by side (`Tiling`), so that their places tell
them apart, in whatever order and however often they arrive: the reassembly is entire when every
byte was received, and then it has the packet (`fragmentation_round_trip`).

The timeouts of the reassembly are in `Ipv4FragmentTimeouts`.
-/

namespace MoeJit.Ipv4

open Pieces List
open BitVec (le_def lt_def toNat_add toNat_setWidth toNat_sub)
open Nat (mod_eq_of_lt zero_le)

/-! ## 1. Model -/

/-- The bytes of a packet. -/
abbrev Packet := List (BitVec 8)

/-- A header without options: the fields that the fragmentation reads or writes. -/
structure Ipv4Header where
  source : BitVec 32
  destination : BitVec 32
  identification : BitVec 16
  protocol : BitVec 8
  payloadSize : BitVec 16
  moreFragments : Bool
  fragmentOffset : BitVec 16
  deriving DecidableEq

/-- An offset that is not a multiple of 8. -/
inductive Failure
  | invalid
  deriving DecidableEq

/-- `GetSerializedSize`. -/
def headerSize : BitVec 32 := 20

def Ipv4Header.isLastFragment (header : Ipv4Header) : Bool := !header.moreFragments

def Ipv4Header.setFragmentOffset (header : Ipv4Header) (offsetBytes : BitVec 16) :
    Except Failure Ipv4Header :=
  if offsetBytes &&& 7 = 0 then .ok { header with fragmentOffset := offsetBytes }
  else .error .invalid

/-- The fields after `Serialize` and `Deserialize`: the offset counts 8 bytes and the size is that of
the packet with the header. -/
def Ipv4Header.received (header : Ipv4Header) : Ipv4Header :=
  { header with
    fragmentOffset := (header.fragmentOffset >>> 3) <<< 3
    payloadSize := header.payloadSize + 20 - 20 }

def createFragment (packet : Packet) (start length : Nat) : Packet := (packet.drop start).take length

def getSize (packet : Packet) : BitVec 32 := BitVec.ofNat 32 packet.length

/-- The loop over the fragments. The rounds are counted down. -/
def fragmentFrom (p : Packet) (header : Ipv4Header) (fragmentSize : BitVec 32) :
    Nat → BitVec 16 → Except Failure (List (Packet × Ipv4Header))
  | 0, _ => .error .invalid
  | rounds + 1, offset => do
    let moreFragment := offset.setWidth 32 + fragmentSize < getSize p
    let size := if moreFragment then fragmentSize else getSize p - offset.setWidth 32
    let fragment := createFragment p offset.toNat size.toNat
    let fragmentHeader ← header.setFragmentOffset (offset + header.fragmentOffset)
    let fragmentHeader := { fragmentHeader with
      moreFragments := moreFragment || !header.isLastFragment
      payloadSize := size.setWidth 16 }
    if moreFragment then
      let rest ← fragmentFrom p header fragmentSize rounds (offset + size.setWidth 16)
      return (fragment, fragmentHeader) :: rest
    else return [(fragment, fragmentHeader)]

def doFragmentation (packet : Packet) (header : Ipv4Header) (outIfaceMtu : BitVec 32) :
    Except Failure (List (Packet × Ipv4Header)) :=
  fragmentFrom packet header ((outIfaceMtu - headerSize) &&& ~~~7) (packet.length + 1) 0

/-- What `SendRealOut` sends, as it is received at the other end of the link. -/
def sendRealOut (mtu : BitVec 32) (x : Packet × Ipv4Header) :
    Except Failure (List (Packet × Ipv4Header)) :=
  (if mtu < getSize x.1 + headerSize then doFragmentation x.1 x.2 mtu else .ok [x]).map
    (List.map fun y => (y.1, y.2.received))

/-- All fragments are sent over a link. -/
def sendAll (mtu : BitVec 32) : List (Packet × Ipv4Header) →
    Except Failure (List (Packet × Ipv4Header))
  | [] => .ok []
  | x :: xs => do
    let first ← sendRealOut mtu x
    let rest ← sendAll mtu xs
    return first ++ rest

/-- The links of a path, one after the other. -/
def path : List (BitVec 32) → List (Packet × Ipv4Header) → Except Failure (List (Packet × Ipv4Header))
  | [], xs => .ok xs
  | mtu :: mtus, xs => do
    let xs ← sendAll mtu xs
    path mtus xs

structure Fragments where
  moreFragment : Bool
  fragments : List (Packet × BitVec 16)
  deriving DecidableEq

namespace Fragments

def initial : Fragments := ⟨false, []⟩

/-- Before the first fragment with a greater offset. The flag counts if there is none. -/
def addFragment (s : Fragments) (fragment : Packet) (fragmentOffset : BitVec 16)
    (moreFragment : Bool) : Fragments where
  moreFragment :=
    if s.fragments.all fun it => it.2 ≤ fragmentOffset then moreFragment else s.moreFragment
  fragments := s.fragments.orderedInsert (fun a b => a.2 < b.2) (fragment, fragmentOffset)

/-- The loop of `IsEntire`. -/
def contiguous : BitVec 16 → List (Packet × BitVec 16) → Bool
  | _, [] => true
  | lastEndOffset, it :: fragments =>
    if lastEndOffset < it.2 then false
    else
      let fragmentEnd := (getSize it.1).setWidth 16 + it.2
      contiguous (if lastEndOffset < fragmentEnd then fragmentEnd else lastEndOffset) fragments

def isEntire (s : Fragments) : Bool :=
  !s.moreFragment && !s.fragments.isEmpty && contiguous 0 s.fragments

/-- The loop of `GetPacket`. -/
def assemble : Packet → BitVec 16 → List (Packet × BitVec 16) → Packet
  | p, _, [] => p
  | p, lastEndOffset, it :: fragments =>
    let p :=
      if it.2 < lastEndOffset then
        let newStart := lastEndOffset.toNat - it.2.toNat
        if newStart < it.1.length then p ++ createFragment it.1 newStart (it.1.length - newStart)
        else p
      else p ++ it.1
    assemble p ((getSize p).setWidth 16) fragments

def getPacket (s : Fragments) : Packet :=
  match s.fragments with
  | [] => []
  | it :: fragments => assemble it.1 ((getSize it.1).setWidth 16) fragments

end Fragments

/-- The address combination, the identification and the protocol. -/
def Ipv4Header.key (header : Ipv4Header) : BitVec 64 × BitVec 32 :=
  (header.source.setWidth 64 <<< 32 ||| header.destination.setWidth 64,
    header.identification.setWidth 32 <<< 16 ||| header.protocol.setWidth 32)

abbrev FragmentsMap := BitVec 64 × BitVec 32 → Option Fragments

/-- The map, whether the packet is entire, and the packet. -/
def processFragment (fragments : FragmentsMap) (packet : Packet) (header : Ipv4Header) :
    FragmentsMap × Bool × Packet :=
  let entry := ((fragments header.key).getD Fragments.initial).addFragment packet
    header.fragmentOffset !header.isLastFragment
  if entry.isEntire then (Function.update fragments header.key none, true, entry.getPacket)
  else (Function.update fragments header.key (some entry), false, packet)

/-! ## 2. Statement -/

/-- The reassembly of fragments that arrive. -/
def reassembly (arrivals : List (Packet × Ipv4Header)) : Fragments :=
  arrivals.foldl (fun s x => s.addFragment x.1 x.2.fragmentOffset x.2.moreFragments)
    Fragments.initial

/-- The bytes of a fragment and their place in the packet. -/
def piece (x : Packet × Ipv4Header) : Packet × Nat := (x.1, x.2.fragmentOffset.toNat)

/-- A fragment arrived, and every byte of the packet. -/
def Received (payload : Packet) (arrivals : List (Packet × Ipv4Header)) : Prop :=
  arrivals ≠ [] ∧ ∀ i < payload.length, Covers (arrivals.map piece) i

/-- The map after fragments of any packets arrived. -/
def processAll (fragments : FragmentsMap) (arrivals : List (Packet × Ipv4Header)) : FragmentsMap :=
  arrivals.foldl (fun fragments x => (processFragment fragments x.1 x.2).1) fragments

/-- The fragments of a packet that were sent over links, and what becomes of them. -/
structure RoundTrip (payload : Packet) (header : Ipv4Header) (mtus : List (BitVec 32))
    (sent : List (Packet × Ipv4Header)) : Prop where
  last : ∃ front final, sent = front ++ [final] ∧ final.2.moreFragments = false ∧
    ∀ x ∈ front, x.2.moreFragments = true ∧ 8 ∣ x.1.length
  fits : ∀ x ∈ sent, ∀ mtu ∈ mtus, x.1.length + headerSize.toNat ≤ mtu.toNat
  entire : ∀ arrivals, (∀ x ∈ arrivals, x ∈ sent) →
    ((reassembly arrivals).isEntire = true ↔ Received payload arrivals)
  packet : ∀ arrivals, (∀ x ∈ arrivals, x ∈ sent) → (reassembly arrivals).isEntire = true →
    (reassembly arrivals).getPacket = payload
  /-- Also among the fragments of other packets, up to the first time that it is entire. -/
  process : ∀ fragments arrivals x, fragments header.key = none →
    (∀ y ∈ arrivals ++ [x], y.2.key = header.key → y ∈ sent) → x.2.key = header.key →
    (∀ before, before <+: arrivals →
      ¬Received payload (before.filter fun y => y.2.key = header.key)) →
    ((processFragment (processAll fragments arrivals) x.1 x.2).2.1 = true ↔
      Received payload ((arrivals ++ [x]).filter fun y => y.2.key = header.key)) ∧
    ((processFragment (processAll fragments arrivals) x.1 x.2).2.1 = true →
      (processFragment (processAll fragments arrivals) x.1 x.2).2.2 = payload)

/-! ## 3. Offsets -/

theorem toNat_shift (x : BitVec 16) : ((x >>> 3) <<< 3).toNat = x.toNat / 8 * 8 := by
  have hx := x.isLt
  rw [BitVec.toNat_shiftLeft, BitVec.toNat_ushiftRight, Nat.shiftRight_eq_div_pow, Nat.shiftLeft_eq]
  omega

theorem and_not_seven (x : BitVec 32) : x &&& ~~~(7 : BitVec 32) = (x >>> 3) <<< 3 := by
  have hseven : ∀ i < 32, (7 : BitVec 32).getLsbD i = decide (i < 3) := by decide
  refine BitVec.eq_of_getLsbD_eq fun i hi => ?_
  rw [BitVec.getLsbD_and, BitVec.getLsbD_not, hseven i hi, BitVec.getLsbD_shiftLeft,
    BitVec.getLsbD_ushiftRight]
  cases lt_or_ge i 3 with
  | inl hlt => simp [hlt]
  | inr hge => simp [hi, not_lt.mpr hge, Nat.add_sub_cancel' hge]

variable {mtu : BitVec 32} {header : Ipv4Header} {x : Packet × Ipv4Header} {s : Fragments}

theorem fragmentSize_eq (hmtu : 68 ≤ mtu.toNat) :
    ((mtu - headerSize) &&& ~~~(7 : BitVec 32)).toNat = (mtu.toNat - 20) / 8 * 8 := by
  have hlt := mtu.isLt
  have hheader : headerSize.toNat = 20 := rfl
  rw [and_not_seven, BitVec.toNat_shiftLeft, BitVec.toNat_ushiftRight, Nat.shiftRight_eq_div_pow,
    Nat.shiftLeft_eq, toNat_sub, hheader]
  omega

theorem setFragmentOffset_ok (header : Ipv4Header) {offset : BitVec 16} (h : 8 ∣ offset.toNat) :
    header.setFragmentOffset offset = .ok { header with fragmentOffset := offset } := by
  refine if_pos (BitVec.eq_of_toNat_eq ?_)
  rw [BitVec.toNat_and]
  exact (Nat.and_two_pow_sub_one_eq_mod offset.toNat 3).trans (Nat.mod_eq_zero_of_dvd h)

theorem received_eq (h : 8 ∣ header.fragmentOffset.toNat) : header.received = header := by
  have hoffset : (header.fragmentOffset >>> 3) <<< 3 = header.fragmentOffset :=
    BitVec.eq_of_toNat_eq ((toNat_shift _).trans (Nat.div_mul_cancel h))
  unfold Ipv4Header.received
  rw [hoffset, BitVec.add_sub_cancel]

theorem getSize_toNat {packet : Packet} (h : packet.length ≤ 65515) :
    (getSize packet).toNat = packet.length :=
  mod_eq_of_lt (lt_of_le_of_lt h (by decide))

/-! ## 4. Sending -/

/-- Fragments that lie side by side from an offset on: all but the last have more fragments after
them and units of 8 bytes. -/
inductive Tiling (key : BitVec 64 × BitVec 32) :
    Nat → Bool → List (Packet × Ipv4Header) → Packet → Prop
  | single {p : Packet} {header : Ipv4Header} (hkey : header.key = key) :
      Tiling key header.fragmentOffset.toNat header.moreFragments [(p, header)] p
  | cons {p rest : Packet} {header : Ipv4Header} {more : Bool} {xs : List (Packet × Ipv4Header)}
      (hkey : header.key = key) (hmore : header.moreFragments = true) (hp : p ≠ [])
      (haligned : 8 ∣ p.length) (hrest : rest ≠ [])
      (tail : Tiling key (header.fragmentOffset.toNat + p.length) more xs rest) :
      Tiling key header.fragmentOffset.toNat more ((p, header) :: xs) (p ++ rest)

section Sending

variable {key : BitVec 64 × BitVec 32} {o : Nat} {more : Bool} {xs ys : List (Packet × Ipv4Header)}
  {p q : Packet}

theorem Tiling.append (h : Tiling key o true xs p) (hp : p ≠ []) (haligned : 8 ∣ p.length)
    (hq : q ≠ []) (h' : Tiling key (o + p.length) more ys q) :
    Tiling key o more (xs ++ ys) (p ++ q) := by
  generalize htrue : true = first at h
  induction h with
  | single hkey => exact .cons hkey htrue.symm hp haligned hq h'
  | @cons p rest header more' xs hkey hmore hp' haligned' hrest tail ih =>
    have haligned_rest : 8 ∣ rest.length := by
      rw [length_append] at haligned
      exact (Nat.dvd_add_right haligned').mp haligned
    rw [length_append, ← Nat.add_assoc] at h'
    rw [append_assoc]
    exact .cons hkey hmore hp' haligned' (append_ne_nil_of_left_ne_nil hrest q)
      (ih hrest haligned_rest h' htrue)

theorem Tiling.mem (h : Tiling key o more xs p) (hx : x ∈ xs) :
    x.2.key = key ∧ ∃ start, x.2.fragmentOffset.toNat = o + start ∧
      PieceOf p (x.1, start) ∧ (8 ∣ o → 8 ∣ x.2.fragmentOffset.toNat) := by
  induction h with
  | @single p header hkey =>
    rw [mem_singleton.mp hx]
    exact ⟨hkey, 0, rfl, ⟨(take_length ..).symm, (Nat.zero_add _).le⟩, id⟩
  | @cons p rest header more xs hkey hmore hp haligned hrest tail ih =>
    cases mem_cons.mp hx with
    | inl heq =>
      rw [heq]
      refine ⟨hkey, 0, rfl, ⟨?_, ?_⟩, id⟩
      · exact (take_left ..).symm
      · show 0 + p.length ≤ (p ++ rest).length
        rw [length_append, Nat.zero_add]
        exact Nat.le_add_right _ _
    | inr hmem =>
      obtain ⟨hkey', start, hstart, hpiece, hdvd⟩ := ih hmem
      refine ⟨hkey', p.length + start, ?_, ⟨?_, ?_⟩, fun ho => ?_⟩
      · rw [hstart, Nat.add_assoc]
      · have hdrop : (p ++ rest).drop (p.length + start) = rest.drop start := by
          rw [drop_append, drop_eq_nil_of_le (Nat.le_add_right _ _), nil_append,
            Nat.add_sub_cancel_left]
        show x.1 = ((p ++ rest).drop (p.length + start)).take x.1.length
        rw [hdrop]
        exact hpiece.data
      · have hle : start + x.1.length ≤ rest.length := hpiece.le
        show p.length + start + x.1.length ≤ (p ++ rest).length
        rw [length_append]
        omega
      · exact hdvd (Nat.dvd_add ho haligned)

theorem fragmentFrom_ok {p : Packet} {fragmentSize : BitVec 32} (haligned : 8 ∣ fragmentSize.toNat)
    (hpos : 0 < fragmentSize.toNat) (ho : 8 ∣ header.fragmentOffset.toNat)
    (hsize : header.fragmentOffset.toNat + p.length ≤ 65515) :
    ∀ (rounds : Nat) (offset : BitVec 16), p.length < offset.toNat + rounds →
      8 ∣ offset.toNat → (offset.toNat = 0 ∨ offset.toNat < p.length ∧
        fragmentSize.toNat < p.length) →
      ∃ xs, fragmentFrom p header fragmentSize rounds offset = .ok xs ∧
        Tiling header.key (header.fragmentOffset.toNat + offset.toNat) header.moreFragments xs
          (p.drop offset.toNat) ∧
        ∀ x ∈ xs, x.1.length ≤ fragmentSize.toNat := by
  have hlen : (getSize p).toNat = p.length := getSize_toNat (by omega)
  intro rounds
  induction rounds with
  | zero =>
    intro offset hrounds _ hoffset
    omega
  | succ rounds ih =>
    intro offset hrounds hdvd hoffset
    have hle : offset.toNat ≤ p.length := by omega
    have hwide : (offset.setWidth 32).toNat = offset.toNat := by
      rw [toNat_setWidth]
      exact mod_eq_of_lt (by omega)
    have hsum : (offset.setWidth 32 + fragmentSize).toNat = offset.toNat + fragmentSize.toNat := by
      have hfragment := fragmentSize.isLt
      rw [toNat_add, hwide]
      exact mod_eq_of_lt (by omega)
    have hset := @setFragmentOffset_ok header (offset + header.fragmentOffset) (by
      rw [toNat_add, mod_eq_of_lt (by omega)]
      exact Nat.dvd_add hdvd ho)
    have hplace : (offset + header.fragmentOffset).toNat =
        header.fragmentOffset.toNat + offset.toNat := by
      rw [toNat_add, mod_eq_of_lt (by omega), Nat.add_comm]
    unfold fragmentFrom
    rw [hset]
    dsimp only [bind, Except.bind]
    split
    · next hmore =>
      have hlt : offset.toNat + fragmentSize.toNat < p.length := by
        rw [← hsum, ← hlen]
        exact lt_def.mp hmore
      have hcut : (fragmentSize.setWidth 16).toNat = fragmentSize.toNat := by
        rw [toNat_setWidth]
        exact mod_eq_of_lt (by omega)
      have hnext : (offset + fragmentSize.setWidth 16).toNat =
          offset.toNat + fragmentSize.toNat := by
        rw [toNat_add, hcut]
        exact mod_eq_of_lt (by omega)
      obtain ⟨xs, hok, htiling, hfits⟩ := ih (offset + fragmentSize.setWidth 16)
        (by omega) (hnext ▸ Nat.dvd_add hdvd haligned) (by omega)
      have hfragment : (createFragment p offset.toNat fragmentSize.toNat).length =
          fragmentSize.toNat := by
        unfold createFragment
        rw [length_take, length_drop]
        omega
      have hwhole : p.drop offset.toNat = createFragment p offset.toNat fragmentSize.toNat ++
          p.drop (offset + fragmentSize.setWidth 16).toNat := by
        unfold createFragment
        rw [hnext, ← drop_drop, take_append_drop]
      have hne : createFragment p offset.toNat fragmentSize.toNat ≠ [] :=
        ne_nil_of_length_pos (hfragment.symm ▸ hpos)
      have hrest : p.drop (offset + fragmentSize.setWidth 16).toNat ≠ [] := by
        refine ne_nil_of_length_pos ?_
        rw [length_drop]
        omega
      rw [hok]
      refine ⟨_, rfl, ?_, forall_mem_cons.mpr ⟨Nat.le_of_eq hfragment, hfits⟩⟩
      rw [hwhole, ← hplace]
      have hkey : Ipv4Header.key
          { header with
            fragmentOffset := offset + header.fragmentOffset
            moreFragments := decide (offset.setWidth 32 + fragmentSize < getSize p) ||
              !header.isLastFragment
            payloadSize := fragmentSize.setWidth 16 } = header.key := rfl
      refine .cons hkey ?_ hne (hfragment.symm ▸ haligned) hrest ?_
      · show (decide _ || _) = true
        rw [decide_eq_true hmore]
        rfl
      · rw [hfragment]
        show Tiling _ ((offset + header.fragmentOffset).toNat + _) _ _ _
        rw [hplace, Nat.add_assoc, ← hnext]
        exact htiling
    · next hlast =>
      have hge : p.length ≤ offset.toNat + fragmentSize.toNat := by
        rw [← hsum, ← hlen]
        exact BitVec.not_lt.mp hlast
      have hsub : (getSize p - offset.setWidth 32).toNat = p.length - offset.toNat := by
        rw [toNat_sub, hlen, hwide]
        omega
      have hfragment : createFragment p offset.toNat (getSize p - offset.setWidth 32).toNat =
          p.drop offset.toNat := by
        unfold createFragment
        rw [hsub, ← length_drop, take_length]
      have hflag : (decide (offset.setWidth 32 + fragmentSize < getSize p) ||
          !header.isLastFragment) = header.moreFragments := by
        rw [decide_eq_false hlast]
        exact Bool.not_not _
      have hkey : Ipv4Header.key
          { header with
            fragmentOffset := offset + header.fragmentOffset
            payloadSize := (getSize p - offset.setWidth 32).setWidth 16 } = header.key := rfl
      rw [hfragment, hflag, ← hplace]
      refine ⟨_, rfl, .single hkey, fun x hx => ?_⟩
      rw [mem_singleton.mp hx, length_drop]
      omega

theorem sendRealOut_ok (hmtu : 68 ≤ mtu.toNat) (ho : 8 ∣ header.fragmentOffset.toNat)
    (hsize : header.fragmentOffset.toNat + p.length ≤ 65515) :
    ∃ ys, sendRealOut mtu (p, header) = .ok ys ∧
      Tiling header.key header.fragmentOffset.toNat header.moreFragments ys p ∧
      ∀ y ∈ ys, y.1.length ≤ p.length ∧ y.1.length + headerSize.toNat ≤ mtu.toNat := by
  have hheader : headerSize.toNat = 20 := rfl
  have hlen : (getSize p).toNat = p.length := getSize_toNat (by omega)
  have hsum : (getSize p + headerSize).toNat = p.length + 20 := by
    rw [toNat_add, hlen, hheader]
    exact mod_eq_of_lt (by omega)
  unfold sendRealOut
  split
  · next hcut =>
    have hlt : mtu.toNat < p.length + 20 := hsum ▸ lt_def.mp hcut
    have hfragment := fragmentSize_eq hmtu
    have hpos : 0 < ((mtu - headerSize) &&& ~~~(7 : BitVec 32)).toNat := by
      rw [hfragment]
      exact Nat.mul_pos (Nat.div_pos (by omega) (by decide)) (by decide)
    obtain ⟨ys, hok, htiling, hfits⟩ := fragmentFrom_ok (hfragment ▸ Nat.dvd_mul_left 8 _) hpos ho
      hsize (p.length + 1) 0 (by show p.length < 0 + (p.length + 1); omega) (Nat.dvd_zero 8)
      (.inl rfl)
    have hrecv : ys.map (fun y => (y.1, y.2.received)) = ys := by
      refine (map_congr_left fun y hy => ?_).trans (map_id ys)
      obtain ⟨-, _, -, -, hdvd⟩ := htiling.mem hy
      exact Prod.ext rfl (received_eq (hdvd ho))
    refine ⟨ys, ?_, htiling, fun y hy => ?_⟩
    · unfold doFragmentation
      rw [hok]
      exact congrArg Except.ok hrecv
    · obtain ⟨-, start, -, hpiece, -⟩ := htiling.mem hy
      have hle : start + y.1.length ≤ p.length := hpiece.le
      have hfit := hfits y hy
      rw [hfragment] at hfit
      exact ⟨(Nat.le_add_left _ _).trans hle, by omega⟩
  · next hwhole =>
    have hge : p.length + 20 ≤ mtu.toNat := hsum ▸ BitVec.not_lt.mp hwhole
    refine ⟨[(p, header)], ?_, .single rfl, fun y hy => ?_⟩
    · exact congrArg (fun received => Except.ok [(p, received)]) (received_eq ho)
    · rw [mem_singleton.mp hy]
      exact ⟨Nat.le_refl _, hge⟩

theorem sendAll_ok (hmtu : 68 ≤ mtu.toNat) (h : Tiling key o more xs p) (ho : 8 ∣ o)
    (hsize : o + p.length ≤ 65515) :
    ∃ ys, sendAll mtu xs = .ok ys ∧ Tiling key o more ys p ∧
      ∀ y ∈ ys, y.1.length + headerSize.toNat ≤ mtu.toNat ∧ ∃ x ∈ xs, y.1.length ≤ x.1.length := by
  induction h with
  | @single p header hkey =>
    obtain ⟨ys, hok, htiling, hfits⟩ := sendRealOut_ok hmtu ho hsize
    refine ⟨ys, ?_, hkey ▸ htiling, fun y hy => ?_⟩
    · unfold sendAll
      rw [hok]
      exact congrArg Except.ok (append_nil ys)
    · obtain ⟨hle, hfit⟩ := hfits y hy
      exact ⟨hfit, _, mem_singleton_self _, hle⟩
  | @cons p rest header more xs hkey hmore hp haligned hrest tail ih =>
    rw [length_append, ← Nat.add_assoc] at hsize
    obtain ⟨ys, hok, htiling, hfits⟩ := sendRealOut_ok hmtu ho ((Nat.le_add_right _ _).trans hsize)
    obtain ⟨zs, hoks, htilings, hrests⟩ := ih (Nat.dvd_add ho haligned) hsize
    rw [hkey, hmore] at htiling
    refine ⟨ys ++ zs, ?_, htiling.append hp haligned hrest htilings, fun y hy => ?_⟩
    · unfold sendAll
      rw [hok, hoks]
      rfl
    · cases mem_append.mp hy with
      | inl hfirst =>
        obtain ⟨hle, hfit⟩ := hfits y hfirst
        exact ⟨hfit, _, mem_cons_self, hle⟩
      | inr hlater =>
        obtain ⟨hfit, x, hx, hle⟩ := hrests y hlater
        exact ⟨hfit, x, mem_cons_of_mem _ hx, hle⟩

theorem path_ok (mtus : List (BitVec 32)) (hmtus : ∀ mtu ∈ mtus, 68 ≤ mtu.toNat)
    (h : Tiling key o more xs p) (ho : 8 ∣ o) (hsize : o + p.length ≤ 65515) :
    ∃ ys, path mtus xs = .ok ys ∧ Tiling key o more ys p ∧
      ∀ y ∈ ys, (∀ mtu ∈ mtus, y.1.length + headerSize.toNat ≤ mtu.toNat) ∧
        ∃ x ∈ xs, y.1.length ≤ x.1.length := by
  induction mtus generalizing xs with
  | nil =>
    exact ⟨xs, rfl, h, fun y hy => ⟨forall_mem_nil _, y, hy, le_refl _⟩⟩
  | cons mtu mtus ih =>
    obtain ⟨hmtu, hothers⟩ := forall_mem_cons.mp hmtus
    obtain ⟨ys, hok, htiling, hfits⟩ := sendAll_ok hmtu h ho hsize
    obtain ⟨zs, hoks, htilings, hrests⟩ := ih hothers htiling
    refine ⟨zs, ?_, htilings, fun z hz => ?_⟩
    · unfold path
      rw [hok]
      exact hoks
    · obtain ⟨hfit, y, hy, hle⟩ := hrests z hz
      obtain ⟨hfitY, x, hx, hleX⟩ := hfits y hy
      refine ⟨forall_mem_cons.mpr ⟨?_, hfit⟩, x, hx, hle.trans hleX⟩
      exact (Nat.add_le_add_right hle _).trans hfitY

theorem Tiling.last (h : Tiling key o more xs p) (hmore : more = false) :
    ∃ front final, xs = front ++ [final] ∧ final.2.moreFragments = false ∧
      final.2.fragmentOffset.toNat + final.1.length = o + p.length ∧
      ∀ x ∈ front, (x.2.moreFragments = true ∧ 8 ∣ x.1.length) ∧
        x.2.fragmentOffset.toNat < final.2.fragmentOffset.toNat ∧
        x.2.fragmentOffset.toNat + x.1.length < o + p.length := by
  induction h with
  | @single p header hkey => exact ⟨[], (p, header), rfl, hmore, rfl, forall_mem_nil _⟩
  | @cons p rest header more xs hkey hflag hp haligned hrest tail ih =>
    obtain ⟨front, final, hxs, hfinal, hend, hfront⟩ := ih hmore
    have hlen : header.fragmentOffset.toNat + (p ++ rest).length =
        header.fragmentOffset.toNat + p.length + rest.length := by
      rw [length_append, Nat.add_assoc]
    obtain ⟨-, start, hstart, -⟩ :=
      tail.mem (hxs ▸ mem_append_right front (mem_singleton_self final))
    rw [hlen]
    refine ⟨(p, header) :: front, final, congrArg ((p, header) :: ·) hxs, hfinal, hend,
      forall_mem_cons.mpr ⟨⟨⟨hflag, haligned⟩, ?_, ?_⟩, hfront⟩⟩
    · rw [hstart, Nat.add_assoc]
      exact Nat.lt_add_of_pos_right (Nat.add_pos_left (length_pos_iff.mpr hp) start)
    · exact Nat.lt_add_of_pos_right (length_pos_iff.mpr hrest)

/-- A fragment is the last one, or there are others from greater offsets on. -/
theorem Tiling.mem_cases (h : Tiling key o false xs p) (hx : x ∈ xs) :
    (x.2.moreFragments = false ∧ x.2.fragmentOffset.toNat + x.1.length = o + p.length ∧
      ∀ y ∈ xs, y.2.fragmentOffset.toNat ≤ x.2.fragmentOffset.toNat) ∨
    (x.2.moreFragments = true ∧ x.2.fragmentOffset.toNat + x.1.length < o + p.length ∧
      ∀ y ∈ xs, y.2.moreFragments = false →
        x.2.fragmentOffset.toNat < y.2.fragmentOffset.toNat) := by
  obtain ⟨front, final, hxs, hfinal, hend, hfront⟩ := h.last rfl
  subst hxs
  cases mem_append.mp hx with
  | inl hmem =>
    obtain ⟨⟨hmore, -⟩, hlt, hbefore⟩ := hfront x hmem
    refine .inr ⟨hmore, hbefore, fun y hy hlast => ?_⟩
    cases mem_append.mp hy with
    | inl hy => rw [(hfront y hy).1.1] at hlast; cases hlast
    | inr hy => exact mem_singleton.mp hy ▸ hlt
  | inr hmem =>
    rw [mem_singleton.mp hmem]
    refine .inl ⟨hfinal, hend, fun y hy => ?_⟩
    cases mem_append.mp hy with
    | inl hy => exact le_of_lt (hfront y hy).2.1
    | inr hy => exact mem_singleton.mp hy ▸ le_refl _

end Sending

/-! ## 5. Reassembly -/

/-- A fragment with its place as a number. -/
def place (it : Packet × BitVec 16) : Packet × Nat := (it.1, it.2.toNat)

theorem setWidth_getSize {p : Packet} (h : p.length ≤ 65515) :
    ((getSize p).setWidth 16).toNat = p.length := by
  rw [toNat_setWidth, getSize_toNat h]
  exact mod_eq_of_lt (lt_of_le_of_lt h (by decide))

namespace Fragments

theorem contiguous_eq {fragments : List (Packet × BitVec 16)}
    (h : ∀ it ∈ fragments, it.2.toNat + it.1.length ≤ 65515) (lastEndOffset : BitVec 16) :
    contiguous lastEndOffset fragments = gapless lastEndOffset.toNat (fragments.map place) := by
  induction fragments generalizing lastEndOffset with
  | nil => rfl
  | cons it fragments ih =>
    obtain ⟨hit, hrest⟩ := forall_mem_cons.mp h
    have hlen := setWidth_getSize ((Nat.le_add_left _ _).trans hit)
    have hend : ((getSize it.1).setWidth 16 + it.2).toNat = it.2.toNat + it.1.length := by
      rw [toNat_add, hlen, Nat.add_comm]
      exact mod_eq_of_lt (Nat.lt_of_le_of_lt hit (by decide))
    have hmax : (if lastEndOffset < (getSize it.1).setWidth 16 + it.2 then
          (getSize it.1).setWidth 16 + it.2 else lastEndOffset).toNat =
        max lastEndOffset.toNat (it.2.toNat + it.1.length) := by
      split
      · next hlt =>
        have hle := Nat.le_of_lt (lt_def.mp hlt)
        rw [hend] at hle
        exact hend.trans (Nat.max_eq_right hle).symm
      · next hge =>
        have hle := BitVec.not_lt.mp hge
        rw [le_def, hend] at hle
        exact (Nat.max_eq_left hle).symm
    show (if lastEndOffset < it.2 then false else contiguous _ fragments) =
      if lastEndOffset.toNat < it.2.toNat then false else gapless _ (fragments.map place)
    rw [ih hrest, hmax]
    rfl

theorem assemble_eq {fragments : List (Packet × BitVec 16)}
    (h : ∀ it ∈ fragments, it.2.toNat + it.1.length ≤ 65515) {p : Packet}
    (hp : p.length ≤ 65515) (hgapless : gapless p.length (fragments.map place) = true) :
    assemble p ((getSize p).setWidth 16) fragments = join p (fragments.map place) := by
  induction fragments generalizing p with
  | nil => rfl
  | cons it fragments ih =>
    obtain ⟨hit, hrest⟩ := forall_mem_cons.mp h
    have hlen := setWidth_getSize hp
    have hstep : (if it.2 < (getSize p).setWidth 16 then
          if ((getSize p).setWidth 16).toNat - it.2.toNat < it.1.length then
            p ++ createFragment it.1 (((getSize p).setWidth 16).toNat - it.2.toNat)
              (it.1.length - (((getSize p).setWidth 16).toNat - it.2.toNat))
          else p
        else p ++ it.1) = p ++ it.1.drop (p.length - it.2.toNat) := by
      split
      · rw [hlen]
        split
        · unfold createFragment
          rw [← length_drop, take_length]
        · next hinside =>
          rw [drop_eq_nil_of_le (not_lt.mp hinside), append_nil]
      · next hafter =>
        have hle := BitVec.not_lt.mp hafter
        rw [le_def, hlen] at hle
        rw [Nat.sub_eq_zero_of_le hle, drop_zero]
    obtain ⟨hstart, hlater⟩ := gapless_cons.mp hgapless
    change it.2.toNat ≤ p.length at hstart
    have hnext : (p ++ it.1.drop (p.length - it.2.toNat)).length =
        max p.length (it.2.toNat + it.1.length) := by
      rw [length_append, length_drop]
      omega
    unfold assemble
    rw [hstep]
    exact ih hrest (hnext ▸ Nat.max_le.mpr ⟨hp, hit⟩) (hnext ▸ hlater)

theorem getPacket_eq (h : ∀ it ∈ s.fragments, it.2.toNat + it.1.length ≤ 65515)
    (hgapless : gapless 0 (s.fragments.map place) = true) :
    s.getPacket = join [] (s.fragments.map place) := by
  unfold getPacket
  split
  · next hnil => rw [hnil]; rfl
  · next it fragments hcons =>
    rw [hcons] at h hgapless ⊢
    obtain ⟨hit, hrest⟩ := forall_mem_cons.mp h
    obtain ⟨hstart, hlater⟩ := gapless_cons.mp hgapless
    have hzero : it.2.toNat = 0 := Nat.le_zero.mp hstart
    have hend : max 0 ((place it).2 + (place it).1.length) = it.1.length := by
      show max 0 (it.2.toNat + it.1.length) = it.1.length
      rw [hzero, Nat.zero_add, Nat.zero_max]
    have hfirst : ([] : Packet) ++ (place it).1.drop (([] : Packet).length - (place it).2) = it.1 := by
      rw [length_nil, Nat.zero_sub, drop_zero]
      rfl
    rw [hend] at hlater
    rw [map_cons, join, hfirst]
    exact assemble_eq hrest ((Nat.le_add_left _ _).trans hit) hlater

end Fragments

/-- What a reassembly has of the fragments that arrived. -/
structure Reassembled (arrivals : List (Packet × Ipv4Header)) (s : Fragments) : Prop where
  perm : s.fragments.Perm (arrivals.map fun x => (x.1, x.2.fragmentOffset))
  sorted : s.fragments.Pairwise fun a b => a.2 ≤ b.2
  flag : s.moreFragment = false ↔ arrivals = [] ∨ ∃ x ∈ arrivals, x.2.moreFragments = false

namespace Fragments

theorem perm_addFragment (s : Fragments) (fragment : Packet) (fragmentOffset : BitVec 16)
    (moreFragment : Bool) :
    (s.addFragment fragment fragmentOffset moreFragment).fragments.Perm
      ((fragment, fragmentOffset) :: s.fragments) :=
  perm_orderedInsert _ _ _

theorem sorted_addFragment (hs : s.fragments.Pairwise fun a b => a.2 ≤ b.2) (fragment : Packet)
    (fragmentOffset : BitVec 16) (moreFragment : Bool) :
    (s.addFragment fragment fragmentOffset moreFragment).fragments.Pairwise
      fun a b => a.2 ≤ b.2 := by
  refine pairwise_orderedInsert (fun a b => ?_) (fun a b => ?_) (fun a b c => ?_) _ hs
  · exact BitVec.not_le.symm
  · exact BitVec.le_total _ _
  · exact BitVec.le_trans

end Fragments

theorem reassembly_append (arrivals : List (Packet × Ipv4Header)) (x : Packet × Ipv4Header) :
    reassembly (arrivals ++ [x]) =
      (reassembly arrivals).addFragment x.1 x.2.fragmentOffset x.2.moreFragments :=
  foldl_append ..

section Receiving

variable {key : BitVec 64 × BitVec 32} {payload : Packet} {sent arrivals : List (Packet × Ipv4Header)}

section

variable (h : Tiling key 0 false sent payload)
include h

theorem Reassembled.addFragment (hs : Reassembled arrivals s)
    (harrivals : ∀ y ∈ arrivals ++ [x], y ∈ sent) :
    Reassembled (arrivals ++ [x]) (s.addFragment x.1 x.2.fragmentOffset x.2.moreFragments) where
  perm := by
    rw [map_append]
    exact (s.perm_addFragment _ _ _).trans ((hs.perm.cons _).trans (perm_append_singleton _ _).symm)
  sorted := Fragments.sorted_addFragment hs.sorted _ _ _
  flag := by
    obtain ⟨hbefore, hx⟩ := forall_mem_append.mp harrivals
    have hx := forall_mem_singleton.mp hx
    have hall : (s.fragments.all fun it => it.2 ≤ x.2.fragmentOffset) = true ↔
        ∀ y ∈ arrivals, y.2.fragmentOffset.toNat ≤ x.2.fragmentOffset.toNat := by
      rw [hs.perm.all_eq, all_map, all_eq_true]
      exact forall₂_congr fun y _ => decide_eq_true_iff
    have hexists : (∃ y ∈ arrivals ++ [x], y.2.moreFragments = false) ↔
        (∃ y ∈ arrivals, y.2.moreFragments = false) ∨ x.2.moreFragments = false := by
      simp only [mem_append, mem_singleton, or_and_right, exists_or, exists_eq_left]
    rw [hexists, or_iff_right (append_ne_nil_of_right_ne_nil arrivals (cons_ne_nil x []))]
    show (if _ then _ else _) = false ↔ _
    rcases h.mem_cases hx with ⟨hlast, -, hgreatest⟩ | ⟨hmore, -, hless⟩
    · rw [if_pos (hall.mpr fun y hy => hgreatest y (hbefore y hy))]
      exact iff_of_true hlast (.inr hlast)
    · rw [hmore, or_iff_left Bool.noConfusion]
      split
      · next hafter =>
        refine iff_of_false Bool.noConfusion ?_
        rintro ⟨y, hy, hlast⟩
        exact absurd (hall.mp hafter y hy) (not_le.mpr (hless y (hbefore y hy) hlast))
      · next hbetween =>
        rw [hs.flag, or_iff_right]
        rintro rfl
        exact hbetween (hall.mpr (forall_mem_nil _))

theorem reassembled (harrivals : ∀ x ∈ arrivals, x ∈ sent) :
    Reassembled arrivals (reassembly arrivals) := by
  induction arrivals using List.reverseRecOn with
  | nil => exact ⟨.nil, .nil, iff_of_true rfl (.inl rfl)⟩
  | append_singleton arrivals x ih =>
    rw [reassembly_append]
    exact (ih fun y hy => harrivals y (mem_append_left _ hy)).addFragment h harrivals

/-- What the fragments that arrived reach, and whether the last one is among them. -/
theorem isEntire_iff (hsize : payload.length ≤ 65515)
    (harrivals : ∀ x ∈ arrivals, x ∈ sent) :
    ((reassembly arrivals).isEntire = true ↔ Received payload arrivals) ∧
      ((reassembly arrivals).isEntire = true → (reassembly arrivals).getPacket = payload) := by
  have hs := reassembled h harrivals
  generalize reassembly arrivals = s at hs
  have hplaces : (s.fragments.map place).Perm (arrivals.map piece) := by
    have hmap := hs.perm.map place
    rw [map_map] at hmap
    exact hmap
  have hpieces : ∀ y ∈ s.fragments.map place, PieceOf payload y := by
    intro y hy
    obtain ⟨x, hx, rfl⟩ := mem_map.mp (hplaces.mem_iff.mp hy)
    obtain ⟨-, start, hstart, hpiece, -⟩ := h.mem (harrivals x hx)
    have hplace : piece x = (x.1, start) := Prod.ext rfl (hstart.trans (Nat.zero_add start))
    exact hplace ▸ hpiece
  have hbound : ∀ it ∈ s.fragments, it.2.toNat + it.1.length ≤ 65515 := fun it hit =>
    (hpieces _ (mem_map_of_mem hit)).le.trans hsize
  have hsorted : (s.fragments.map place).Pairwise fun a b => a.2 ≤ b.2 :=
    pairwise_map.mpr (hs.sorted.imp le_def.mp)
  have hcovers : ∀ i, Covers (s.fragments.map place) i ↔ Covers (arrivals.map piece) i := fun i =>
    exists_congr fun y => and_congr_left fun _ => hplaces.mem_iff
  have hreach : (∃ x ∈ arrivals, x.2.moreFragments = false) →
      reach 0 (s.fragments.map place) = payload.length := by
    rintro ⟨x, hx, hlast⟩
    refine Nat.le_antisymm (reach_le (zero_le _) fun y hy => (hpieces y hy).le) ?_
    rcases h.mem_cases (harrivals x hx) with ⟨-, hend, -⟩ | ⟨hmore, -⟩
    · rw [Nat.zero_add] at hend
      exact hend ▸ end_le_reach (hplaces.mem_iff.mpr (mem_map_of_mem (f := piece) hx))
    · rw [hmore] at hlast
      cases hlast
  have hentire : s.isEntire = true ↔
      (∃ x ∈ arrivals, x.2.moreFragments = false) ∧ gapless 0 (s.fragments.map place) = true := by
    have hempty : s.fragments.isEmpty = false ↔ arrivals ≠ [] := by
      rw [isEmpty_eq_false_iff, ← length_pos_iff, hs.perm.length_eq, length_map, length_pos_iff]
    have hne : (∃ x ∈ arrivals, x.2.moreFragments = false) → arrivals ≠ [] := by
      rintro ⟨x, hx, -⟩
      exact ne_nil_of_mem hx
    unfold Fragments.isEntire
    rw [Bool.and_eq_true, Bool.and_eq_true, Bool.not_eq_true', Bool.not_eq_true', hs.flag, hempty,
      Fragments.contiguous_eq hbound]
    refine and_congr_left fun _ => ⟨fun hboth => hboth.1.resolve_left hboth.2, fun hlast => ?_⟩
    exact ⟨.inr hlast, hne hlast⟩
  rw [hentire]
  refine ⟨⟨?_, ?_⟩, ?_⟩
  · rintro ⟨hlast, hgapless⟩
    obtain ⟨x, hx, -⟩ := id hlast
    refine ⟨ne_nil_of_mem hx, fun i hi => (hcovers i).mp ?_⟩
    exact (gapless_iff hsorted 0).mp hgapless i (zero_le i) (hreach hlast ▸ hi)
  · rintro ⟨hne, hall⟩
    have hend : ∃ x ∈ arrivals, payload.length ≤ x.2.fragmentOffset.toNat + x.1.length := by
      cases Nat.eq_zero_or_pos payload.length with
      | inl hzero =>
        obtain ⟨x, hx⟩ := exists_mem_of_ne_nil arrivals hne
        exact ⟨x, hx, hzero ▸ zero_le _⟩
      | inr hpos =>
        obtain ⟨y, hy, -, hlt⟩ := hall (payload.length - 1) (Nat.sub_lt hpos Nat.one_pos)
        obtain ⟨x, hx, rfl⟩ := mem_map.mp hy
        exact ⟨x, hx, Nat.le_of_pred_lt hlt⟩
    have hlast : ∃ x ∈ arrivals, x.2.moreFragments = false := by
      obtain ⟨x, hx, hle⟩ := hend
      rcases h.mem_cases (harrivals x hx) with ⟨hlast, -⟩ | ⟨-, hlt, -⟩
      · exact ⟨x, hx, hlast⟩
      · rw [Nat.zero_add] at hlt
        exact absurd hle (Nat.not_le.mpr hlt)
    refine ⟨hlast, (gapless_iff hsorted 0).mpr fun i _ hi => (hcovers i).mpr (hall i ?_)⟩
    exact hreach hlast ▸ hi
  · rintro ⟨hlast, hgapless⟩
    rw [Fragments.getPacket_eq hbound hgapless]
    have hjoin := join_eq_take hpieces (zero_le payload.length) hgapless
    rw [hreach hlast, take_length] at hjoin
    exact hjoin

end

end Receiving

/-! ## 6. Other packets -/

section Processing

variable {key : BitVec 64 × BitVec 32} {payload : Packet} {fragments : FragmentsMap}

theorem processAll_append (fragments : FragmentsMap) (arrivals : List (Packet × Ipv4Header))
    (x : Packet × Ipv4Header) :
    processAll fragments (arrivals ++ [x]) =
      (processFragment (processAll fragments arrivals) x.1 x.2).1 :=
  foldl_append ..

theorem processFragment_eq {mine : List (Packet × Ipv4Header)} (x : Packet × Ipv4Header)
    (h : (fragments x.2.key).getD Fragments.initial = reassembly mine) :
    processFragment fragments x.1 x.2 = if (reassembly (mine ++ [x])).isEntire then
        (Function.update fragments x.2.key none, true, (reassembly (mine ++ [x])).getPacket)
      else (Function.update fragments x.2.key (some (reassembly (mine ++ [x]))), false, x.1) := by
  have hflag : (!x.2.isLastFragment) = x.2.moreFragments := Bool.not_not _
  unfold processFragment
  rw [h, hflag, reassembly_append]

theorem filter_append_mine (arrivals : List (Packet × Ipv4Header)) (hkey : x.2.key = key) :
    (arrivals ++ [x]).filter (fun y => y.2.key = key) =
      arrivals.filter (fun y => y.2.key = key) ++ [x] := by
  rw [filter_append]
  exact congrArg _ (filter_cons_of_pos (decide_eq_true hkey))

/-- The entry of a packet while it is not entire: that of the fragments with its key. -/
theorem entry_eq (hfresh : fragments key = none) (arrivals : List (Packet × Ipv4Header))
    (hincomplete : ∀ before, before <+: arrivals →
      (reassembly (before.filter fun y => y.2.key = key)).isEntire = false) :
    (processAll fragments arrivals key).getD Fragments.initial =
      reassembly (arrivals.filter fun y => y.2.key = key) := by
  induction arrivals using List.reverseRecOn with
  | nil => exact congrArg (Option.getD · Fragments.initial) hfresh
  | append_singleton arrivals x ih =>
    have hbefore := ih fun before hearlier =>
      hincomplete before (hearlier.trans (prefix_append arrivals [x]))
    rw [processAll_append]
    by_cases hkey : x.2.key = key
    · have hnow := hincomplete _ (prefix_refl (arrivals ++ [x]))
      rw [filter_append_mine arrivals hkey] at hnow ⊢
      rw [← hkey] at hbefore
      rw [processFragment_eq x hbefore, hkey, if_neg (Bool.eq_false_iff.mp hnow)]
      show (Function.update (processAll fragments arrivals) key (some _) key).getD _ = _
      rw [Function.update_self]
      rfl
    · have hother : (arrivals ++ [x]).filter (fun y => y.2.key = key) =
          arrivals.filter fun y => y.2.key = key := by
        rw [filter_append, append_right_eq_self]
        exact filter_cons_of_neg fun h => hkey (of_decide_eq_true h)
      rw [hother, ← hbefore]
      unfold processFragment
      dsimp only
      split
      all_goals
        exact congrArg (Option.getD · Fragments.initial) (Function.update_of_ne (Ne.symm hkey) _ _)

end Processing

/-! ## 7. Round trip -/

theorem tiling_of_path {payload : Packet} (hsize : payload.length ≤ 65515)
    {header : Ipv4Header} (hoffset : header.fragmentOffset = 0)
    (hlast : header.moreFragments = false) {mtus : List (BitVec 32)}
    (hmtus : ∀ mtu ∈ mtus, 68 ≤ mtu.toNat) :
    ∃ sent, path mtus [(payload, header)] = .ok sent ∧ Tiling header.key 0 false sent payload ∧
      ∀ x ∈ sent, ∀ mtu ∈ mtus, x.1.length + headerSize.toNat ≤ mtu.toNat := by
  have hwhole : Tiling header.key 0 false [(payload, header)] payload := by
    have hsingle : Tiling header.key header.fragmentOffset.toNat header.moreFragments
        [(payload, header)] payload := .single rfl
    rw [hoffset, hlast] at hsingle
    exact hsingle
  obtain ⟨sent, hok, htiling, hfits⟩ :=
    path_ok mtus hmtus hwhole (Nat.dvd_zero 8) (by rw [Nat.zero_add]; exact hsize)
  exact ⟨sent, hok, htiling, fun x hx => (hfits x hx).1⟩

theorem fragmentation_round_trip (payload : Packet) (hsize : payload.length ≤ 65515)
    (header : Ipv4Header) (hoffset : header.fragmentOffset = 0)
    (hlast : header.moreFragments = false) (mtus : List (BitVec 32))
    (hmtus : ∀ mtu ∈ mtus, 68 ≤ mtu.toNat) :
    ∃ sent, path mtus [(payload, header)] = .ok sent ∧ RoundTrip payload header mtus sent := by
  obtain ⟨sent, hok, htiling, hfits⟩ := tiling_of_path hsize hoffset hlast hmtus
  refine ⟨sent, hok, ?_, hfits, fun arrivals harrivals => ?_,
    fun arrivals harrivals => ?_, fun fragments arrivals x hfresh hsent hkey hincomplete => ?_⟩
  · obtain ⟨front, final, hsent, hfinal, -, hfront⟩ := htiling.last rfl
    exact ⟨front, final, hsent, hfinal, fun x hx => (hfront x hx).1⟩
  · exact (isEntire_iff htiling hsize harrivals).1
  · exact (isEntire_iff htiling hsize harrivals).2
  · have hmine : ∀ y ∈ (arrivals ++ [x]).filter (fun y => y.2.key = header.key), y ∈ sent :=
      fun y hy => hsent y (List.mem_of_mem_filter hy) (of_decide_eq_true (List.mem_filter.mp hy).2)
    have hentry : (processAll fragments arrivals header.key).getD Fragments.initial =
        reassembly (arrivals.filter fun y => y.2.key = header.key) := by
      refine entry_eq hfresh arrivals fun before hearlier => ?_
      refine Bool.eq_false_iff.mpr fun hentire => hincomplete before hearlier ?_
      refine (isEntire_iff htiling hsize fun y hy => hmine y ?_).1.mp hentire
      exact ((hearlier.trans (List.prefix_append arrivals [x])).filter _).subset hy
    rw [← hkey] at hentry
    rw [processFragment_eq x hentry, filter_append_mine arrivals hkey]
    rw [filter_append_mine arrivals hkey] at hmine
    obtain ⟨hiff, hpacket⟩ := isEntire_iff htiling hsize hmine
    rw [← hiff, hkey]
    split
    · next hentire => exact ⟨iff_of_true rfl hentire, fun _ => hpacket hentire⟩
    · next hentire => exact ⟨iff_of_false Bool.false_ne_true hentire, Bool.noConfusion⟩

/-- The second link cuts what the first one cut. -/
theorem fragmentation_round_trip_two_links :
    ∃ sent, path [108, 68] [(List.replicate 200 1, ⟨0x0a000001, 0x0a000002, 7, 17, 200, false, 0⟩)] =
        .ok sent ∧
      RoundTrip (List.replicate 200 1) ⟨0x0a000001, 0x0a000002, 7, 17, 200, false, 0⟩ [108, 68] sent :=
  fragmentation_round_trip _ (by rw [List.length_replicate]; decide) _ rfl rfl _ (by simp)

end MoeJit.Ipv4
