import Mathlib.Algebra.Group.Nat.Defs
import MoeJit.Internet.Ipv4Fragmentation

/-!
# What a reassembly has when it times out

`getPartialPacket` joins the fragments up to the first gap. It returns what was received from the
beginning on, but asks for a fragment outside a packet when one ends before the ones in front of it
do (`partialRight_iff`): `getPacket` looks whether there is anything left of such a fragment.
-/

namespace MoeJit.Ipv4

open Pieces List
open BitVec (le_def lt_def toNat_sub)

/-! ## 1. Model -/

/-- What `CreateFragment` is asked for. -/
structure Request where
  packet : Packet
  start : BitVec 32
  length : BitVec 32
  deriving DecidableEq

/-- `CreateFragment` asserts it of the sum modulo 2^32. -/
def Request.Inside (r : Request) : Prop := r.start.toNat + r.length.toNat ≤ r.packet.length

instance (r : Request) : Decidable r.Inside := inferInstanceAs (Decidable (_ ≤ _))

def Request.fragment (r : Request) : Packet := createFragment r.packet r.start.toNat r.length.toNat

namespace Fragments

/-- The part of a fragment behind the end of what is joined. The sizes are unsigned. -/
def behind (lastEndOffset : BitVec 16) (it : Packet × BitVec 16) : Request :=
  let newStart := lastEndOffset.setWidth 32 - it.2.setWidth 32
  ⟨it.1, newStart, getSize it.1 - newStart⟩

/-- The loop of `GetPartialPacket`, with the fragments that it asks for. -/
def assemblePartial : Packet → BitVec 16 → List (Packet × BitVec 16) → Packet × List Request
  | p, _, [] => (p, [])
  | p, lastEndOffset, it :: fragments =>
    if it.2 < lastEndOffset then
      let p := p ++ (behind lastEndOffset it).fragment
      let (packet, requests) := assemblePartial p ((getSize p).setWidth 16) fragments
      (packet, behind lastEndOffset it :: requests)
    else
      let p := if lastEndOffset = it.2 then p ++ it.1 else p
      assemblePartial p ((getSize p).setWidth 16) fragments

/-- There is at least one fragment. -/
def getPartialPacket (s : Fragments) : Packet × List Request :=
  match s.fragments with
  | [] => ([], [])
  | it :: _ => if 0 < it.2 then ([], []) else assemblePartial [] 0 s.fragments

end Fragments

/-! ## 2. Statement -/

/-- The fragments of a packet that arrived, and what is made of them. -/
structure PartialRight (payload : Packet) (arrivals : List (Packet × Ipv4Header)) : Prop where
  inside : ∀ r ∈ (reassembly arrivals).getPartialPacket.2, r.Inside
  run : ∃ n, (∀ i < n, Covers (arrivals.map piece) i) ∧ ¬Covers (arrivals.map piece) n ∧
    (reassembly arrivals).getPartialPacket.1 = payload.take n
  agrees : (reassembly arrivals).isEntire = true →
    (reassembly arrivals).getPartialPacket.1 = (reassembly arrivals).getPacket

/-! ## 3. The loop -/

variable {it : Packet × BitVec 16} {last : BitVec 16}

namespace Fragments

section Loop

variable {payload : Packet} {fragments : List (Packet × BitVec 16)} {e : Nat}

theorem assemblePartial_gap {p : Packet} (hp : p.length ≤ 65515)
    (h : ∀ it ∈ fragments, p.length < it.2.toNat) :
    assemblePartial p ((getSize p).setWidth 16) fragments = (p, []) := by
  induction fragments with
  | nil => rfl
  | cons it fragments ih =>
    obtain ⟨hit, hrest⟩ := forall_mem_cons.mp h
    have hlen := setWidth_getSize hp
    have hbehind : ¬it.2 < (getSize p).setWidth 16 := by
      rw [lt_def, hlen]
      exact Nat.lt_asymm hit
    have hne : (getSize p).setWidth 16 ≠ it.2 := fun heq => by
      rw [← heq, hlen] at hit
      exact lt_irrefl _ hit
    rw [assemblePartial, if_neg hbehind]
    simp only [if_neg hne]
    exact ih hrest

theorem start_behind (hlast : it.2 < last) :
    (behind last it).start.toNat = last.toNat - it.2.toNat := by
  have hlt := lt_def.mp hlast
  have hbound := last.isLt
  show (last.setWidth 32 - it.2.setWidth 32).toNat = _
  rw [toNat_sub, BitVec.toNat_setWidth, BitVec.toNat_setWidth]
  omega

theorem length_behind (hit : it.1.length ≤ 65515) : (behind last it).length.toNat =
      (2 ^ 32 - (behind last it).start.toNat + it.1.length) % 2 ^ 32 := by
  show (getSize it.1 - (behind last it).start).toNat = _
  rw [toNat_sub, getSize_toNat hit]

theorem inside_behind (hit : it.1.length ≤ 65515) (hlast : it.2 < last) :
    (behind last it).Inside ↔ last.toNat ≤ it.2.toNat + it.1.length := by
  have hlt := lt_def.mp hlast
  have hbound := last.isLt
  show (behind last it).start.toNat + (behind last it).length.toNat ≤ it.1.length ↔ _
  rw [length_behind hit, start_behind hlast]
  omega

theorem fragment_behind (hit : it.1.length ≤ 65515) (hlast : it.2 < last) :
    (behind last it).fragment = it.1.drop (last.toNat - it.2.toNat) := by
  show (it.1.drop (behind last it).start.toNat).take (behind last it).length.toNat = _
  rw [length_behind hit, start_behind hlast, take_of_length_le]
  rw [length_drop]
  have hbound := last.isLt
  omega

/-- What is joined is what is received without a gap. -/
theorem assemblePartial_spec (hpieces : ∀ it ∈ fragments, PieceOf payload (place it))
    (hsize : payload.length ≤ 65515) (hsorted : fragments.Pairwise fun a b => a.2 ≤ b.2)
    (he : e ≤ payload.length) :
    (assemblePartial (payload.take e) ((getSize (payload.take e)).setWidth 16) fragments).1 =
        payload.take (runEnd e (fragments.map place)) ∧
      ((∀ r ∈ (assemblePartial (payload.take e) ((getSize (payload.take e)).setWidth 16)
          fragments).2, r.Inside) ↔ Extending e (fragments.map place)) := by
  induction fragments generalizing e with
  | nil => exact ⟨rfl, iff_of_true (forall_mem_nil _) (extending_nil e)⟩
  | cons it fragments ih =>
    obtain ⟨hit, hrest⟩ := forall_mem_cons.mp hpieces
    obtain ⟨hhead, hlater⟩ := pairwise_cons.mp hsorted
    have hpiece : it.2.toNat + it.1.length ≤ payload.length := hit.le
    have htake : (payload.take e).length = e := length_take_of_le he
    have hlast : ((getSize (payload.take e)).setWidth 16).toNat = e := by
      rw [setWidth_getSize (htake.trans_le (he.trans hsize)), htake]
    have hnext := ih hrest hlater (e := max e (it.2.toNat + it.1.length))
      (Nat.max_le.mpr ⟨he, hpiece⟩)
    rw [map_cons, extending_cons, runEnd]
    show _ = payload.take (if e < it.2.toNat then e else runEnd (max e (it.2.toNat + it.1.length))
      (fragments.map place)) ∧ (_ ↔ e ≤ it.2.toNat + it.1.length ∧ (it.2.toNat ≤ e →
        Extending (max e (it.2.toNat + it.1.length)) (fragments.map place)))
    rcases Nat.lt_trichotomy it.2.toNat e with hlt | heq | hgap
    · -- what the fragment has behind the end is asked for
      have hlen := (Nat.le_add_left it.1.length it.2.toNat).trans (hpiece.trans hsize)
      have hbefore : it.2 < (getSize (payload.take e)).setWidth 16 := by
        rw [lt_def, hlast]
        exact hlt
      have hjoin : payload.take e ++ (behind ((getSize (payload.take e)).setWidth 16) it).fragment =
          payload.take (max e (it.2.toNat + it.1.length)) := by
        rw [fragment_behind hlen hbefore, hlast]
        exact hit.append_take (Nat.le_of_lt hlt)
      have hinside := inside_behind hlen hbefore
      rw [hlast] at hinside
      rw [assemblePartial, if_pos hbefore, if_neg (Nat.lt_asymm hlt), hjoin]
      refine ⟨hnext.1, ?_⟩
      rw [forall_mem_cons, hinside, hnext.2]
      exact and_congr_right fun _ => ⟨fun h _ => h, fun h => h (Nat.le_of_lt hlt)⟩
    · -- the fragment follows
      have hnot : ¬it.2 < (getSize (payload.take e)).setWidth 16 := by
        rw [lt_def, hlast, heq]
        exact Nat.lt_irrefl e
      have hfollows : (getSize (payload.take e)).setWidth 16 = it.2 :=
        BitVec.eq_of_toNat_eq (hlast.trans heq.symm)
      have hjoin : payload.take e ++ it.1 = payload.take (max e (it.2.toNat + it.1.length)) := by
        have happend := hit.append_take (Nat.le_of_eq heq)
        rw [show (place it).2 = e from heq, Nat.sub_self, drop_zero] at happend
        rw [heq]
        exact happend
      rw [assemblePartial, if_neg hnot, if_neg (Nat.not_lt.mpr (Nat.le_of_eq heq))]
      simp only [if_pos hfollows]
      rw [hjoin]
      refine ⟨hnext.1, ?_⟩
      rw [hnext.2]
      constructor
      · intro h
        exact ⟨heq ▸ Nat.le_add_right _ _, fun _ => h⟩
      · intro h
        exact h.2 (Nat.le_of_eq heq)
    · have hbehind : ∀ other ∈ it :: fragments, (payload.take e).length < other.2.toNat := by
        rw [htake]
        exact forall_mem_cons.mpr ⟨hgap, fun other hother =>
          hgap.trans_le (le_def.mp (hhead other hother))⟩
      rw [assemblePartial_gap (htake.trans_le (he.trans hsize)) hbehind, if_pos hgap]
      refine ⟨rfl, iff_of_true (forall_mem_nil _) ⟨?_, fun hstart => ?_⟩⟩
      · exact (Nat.le_of_lt hgap).trans (Nat.le_add_right _ _)
      · exact absurd hstart (Nat.not_le.mpr hgap)

end Loop

theorem getPartialPacket_spec {payload : Packet} {s : Fragments}
    (hpieces : ∀ it ∈ s.fragments, PieceOf payload (place it)) (hsize : payload.length ≤ 65515)
    (hsorted : s.fragments.Pairwise fun a b => a.2 ≤ b.2) :
    s.getPartialPacket.1 = payload.take (runEnd 0 (s.fragments.map place)) ∧
      ((∀ r ∈ s.getPartialPacket.2, r.Inside) ↔ Extending 0 (s.fragments.map place)) := by
  have hspec := assemblePartial_spec hpieces hsize hsorted (Nat.zero_le payload.length)
  unfold getPartialPacket
  split
  · next hnil =>
    rw [hnil] at hspec ⊢
    exact hspec
  · next it fragments hcons =>
    split
    · next hpos =>
      have hbehind : ∀ other ∈ s.fragments, ([] : Packet).length < other.2.toNat := by
        rw [hcons] at hsorted ⊢
        have hfirst : 0 < it.2.toNat := lt_def.mp hpos
        exact forall_mem_cons.mpr ⟨hfirst, fun other hother =>
          hfirst.trans_le (le_def.mp ((pairwise_cons.mp hsorted).1 other hother))⟩
      rw [take_zero, assemblePartial_gap (Nat.zero_le _) hbehind] at hspec
      exact hspec
    · exact hspec

end Fragments

/-! ## 4. Every list of fragments -/

theorem reassembly_perm_sorted (arrivals : List (Packet × Ipv4Header)) :
    (reassembly arrivals).fragments.Perm (arrivals.map fun x => (x.1, x.2.fragmentOffset)) ∧
      (reassembly arrivals).fragments.Pairwise fun a b => a.2 ≤ b.2 := by
  induction arrivals using List.reverseRecOn with
  | nil => exact ⟨.nil, .nil⟩
  | append_singleton arrivals x ih =>
    rw [reassembly_append, map_append]
    refine ⟨?_, Fragments.sorted_addFragment ih.2 _ _ _⟩
    exact (Fragments.perm_addFragment _ _ _ _).trans ((ih.1.cons _).trans
      (perm_append_singleton _ _).symm)

/-- Up to the first gap, in the order of the offsets, no fragment ends before one in front of it. -/
theorem partialRight_iff {payload : Packet} (hsize : payload.length ≤ 65515)
    {arrivals : List (Packet × Ipv4Header)} (h : ∀ x ∈ arrivals, PieceOf payload (piece x)) :
    PartialRight payload arrivals ↔
      Extending 0 ((reassembly arrivals).fragments.map place) := by
  obtain ⟨hperm, hsorted⟩ := reassembly_perm_sorted arrivals
  have hplaces : ((reassembly arrivals).fragments.map place).Perm (arrivals.map piece) := by
    have hmap := hperm.map place
    rw [List.map_map] at hmap
    exact hmap
  have hpieces : ∀ it ∈ (reassembly arrivals).fragments, PieceOf payload (place it) := by
    intro it hit
    obtain ⟨x, hx, heq⟩ := List.mem_map.mp (hplaces.mem_iff.mp (List.mem_map_of_mem hit))
    exact heq ▸ h x hx
  obtain ⟨hpacket, hinside⟩ := Fragments.getPartialPacket_spec hpieces hsize hsorted
  rw [← hinside]
  refine ⟨PartialRight.inside, fun hrequests => ⟨hrequests, ?_, fun hentire => ?_⟩⟩
  · have hcovers : ∀ i, Covers ((reassembly arrivals).fragments.map place) i ↔
        Covers (arrivals.map piece) i := fun i =>
      exists_congr fun y => and_congr_left fun _ => hplaces.mem_iff
    have hordered : ((reassembly arrivals).fragments.map place).Pairwise fun a b => a.2 ≤ b.2 :=
      List.pairwise_map.mpr (hsorted.imp BitVec.le_def.mp)
    obtain ⟨hrun, hend⟩ := runEnd_covers hordered 0
    refine ⟨_, fun i hi => ?_, fun hcover => ?_, hpacket⟩
    · exact (hcovers i).mp (hrun i (Nat.zero_le i) hi)
    · exact hend ((hcovers _).mpr hcover)
  · have hbound : ∀ it ∈ (reassembly arrivals).fragments, it.2.toNat + it.1.length ≤ 65515 :=
      fun it hit => (hpieces it hit).le.trans hsize
    have hgapless : gapless 0 ((reassembly arrivals).fragments.map place) = true := by
      rw [Fragments.isEntire, Bool.and_eq_true, Fragments.contiguous_eq hbound] at hentire
      exact hentire.2
    have hjoin := join_eq_take (List.forall_mem_map.mpr hpieces) (Nat.zero_le payload.length)
      hgapless
    rw [hpacket, Fragments.getPacket_eq hbound hgapless, runEnd_of_gapless hgapless]
    exact hjoin.symm

/-- The bytes of a packet and fragments of it, of which the first was cut again on its way. -/
def count : Packet := [0, 1, 2, 3, 4, 5, 6, 7, 8, 9, 10, 11, 12, 13, 14, 15, 16, 17, 18, 19]

def cut (start length : Nat) : Packet × Ipv4Header :=
  (createFragment count start length,
    ⟨0x0a000001, 0x0a000002, 7, 17, BitVec.ofNat 16 length, true, BitVec.ofNat 16 start⟩)

theorem partialRight_overlap : PartialRight count [cut 8 8, cut 0 16, cut 0 16] := by
  refine (partialRight_iff (by decide) ?_).mpr ?_
  · have hcut : ∀ x ∈ [cut 8 8, cut 0 16, cut 0 16], x = cut 8 8 ∨ x = cut 0 16 := by decide
    intro x hx
    rcases hcut x hx with rfl | rfl
    · exact ⟨by decide, by decide⟩
    · exact ⟨by decide, by decide⟩
  · have hplaces : (reassembly [cut 8 8, cut 0 16, cut 0 16]).fragments.map place =
        [(createFragment count 0 16, 0), (createFragment count 0 16, 0),
          (createFragment count 8 8, 8)] := by decide
    rw [hplaces]
    refine extending_cons.mpr ⟨by decide, fun _ => extending_cons.mpr ⟨by decide, fun _ => ?_⟩⟩
    exact extending_cons.mpr ⟨by decide, fun _ => extending_nil _⟩

/-- The first eight bytes come again after the first sixteen. -/
theorem partial_outside : ¬∀ payload : Packet, payload.length ≤ 65515 → ∀ arrivals,
    (∀ x ∈ arrivals, PieceOf payload (piece x)) → PartialRight payload arrivals := by
  intro h
  have hright := h count (by decide) [cut 0 16, cut 0 8] ?_
  · exact absurd (hright.inside (Fragments.behind 16 (createFragment count 0 8, 0)) (by decide))
      (by decide)
  · intro x hx
    have hcut : x = cut 0 16 ∨ x = cut 0 8 := by
      revert x
      decide
    rcases hcut with rfl | rfl
    · exact ⟨by decide, by decide⟩
    · exact ⟨by decide, by decide⟩

end MoeJit.Ipv4
