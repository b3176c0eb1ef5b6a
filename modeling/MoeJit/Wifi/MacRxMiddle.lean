import MoeJit.Lib.Bytes
import MoeJit.Lib.GuardedRun

/-!
# MSDUs from fragments

For every originator and TID, `MacRxMiddle` holds the fragments of one MSDU until the last of them
has come. A frame that comes in between is taken as the next fragment or dropped, and nothing but
the last fragment ends the reassembly. With no reassembly in progress, a frame is taken as the first
fragment or as a whole MSDU, whatever its fragment number is.

`forwarded_of_meets`: as long as no frame comes while the fragments of an earlier MSDU are held, and
none but a first one begins a reassembly, what is forwarded is one packet for each MSDU all of whose
frames have arrived. `abandoned_msdu_blocks`: after the first fragment of an MSDU that is abandoned,
the next MSDU is dropped.
-/

namespace MoeJit.Wifi

open List

open Bytes (Byte)

/-! ## 1. Model -/

/-- The fields of the header that are read, of which the sequence number has 12 bits and the
fragment number 4. -/
structure WifiMacHeader where
  groupAddr1 : Bool
  retry : Bool
  moreFragments : Bool
  sequenceNumber : Nat
  fragmentNumber : Nat

def WifiMacHeader.sequenceControl (hdr : WifiMacHeader) : Nat :=
  (hdr.sequenceNumber <<< 4) ||| hdr.fragmentNumber

structure OriginatorRxStatus where
  defragmenting : Bool
  lastSequenceControl : Nat
  fragments : List (List Byte)

namespace OriginatorRxStatus

/-- The constructor. -/
def initial : OriginatorRxStatus where
  defragmenting := false
  lastSequenceControl := 0xffff
  fragments := []

def accumulateFirstFragment (originator : OriginatorRxStatus) (packet : List Byte) :
    OriginatorRxStatus :=
  { originator with defragmenting := true, fragments := originator.fragments ++ [packet] }

def accumulateLastFragment (originator : OriginatorRxStatus) (packet : List Byte) :
    OriginatorRxStatus × List Byte :=
  ({ originator with defragmenting := false, fragments := [] },
    (originator.fragments ++ [packet]).flatten)

def accumulateFragment (originator : OriginatorRxStatus) (packet : List Byte) :
    OriginatorRxStatus :=
  { originator with fragments := originator.fragments ++ [packet] }

def isNextFragment (originator : OriginatorRxStatus) (sequenceControl : Nat) : Bool :=
  sequenceControl >>> 4 = originator.lastSequenceControl >>> 4 &&
    sequenceControl &&& 0x0f = (originator.lastSequenceControl &&& 0x0f) + 1

def setSequenceControl (originator : OriginatorRxStatus) (sequenceControl : Nat) :
    OriginatorRxStatus :=
  { originator with lastSequenceControl := sequenceControl }

end OriginatorRxStatus

def isDuplicate (hdr : WifiMacHeader) (originator : OriginatorRxStatus) : Bool :=
  hdr.retry && originator.lastSequenceControl = hdr.sequenceControl

def handleFragments (packet : List Byte) (hdr : WifiMacHeader) (originator : OriginatorRxStatus) :
    OriginatorRxStatus × Option (List Byte) :=
  if originator.defragmenting then
    if hdr.moreFragments then
      if originator.isNextFragment hdr.sequenceControl then
        ((originator.accumulateFragment packet).setSequenceControl hdr.sequenceControl, none)
      else (originator, none)
    else
      if originator.isNextFragment hdr.sequenceControl then
        let accumulated := originator.accumulateLastFragment packet
        (accumulated.1.setSequenceControl hdr.sequenceControl, some accumulated.2)
      else (originator, none)
  else
    if hdr.moreFragments then
      ((originator.accumulateFirstFragment packet).setSequenceControl hdr.sequenceControl, none)
    else (originator, some packet)

/-- `Receive`, with what is forwarded. -/
def receive (packet : List Byte) (hdr : WifiMacHeader) (originator : OriginatorRxStatus) :
    OriginatorRxStatus × Option (List Byte) :=
  if isDuplicate hdr originator then (originator, none)
  else
    match handleFragments packet hdr originator with
    | (originator, none) => (originator, none)
    | (originator, some aggregate) =>
      (if hdr.groupAddr1 then originator else originator.setSequenceControl hdr.sequenceControl,
        some aggregate)

/-! ## 2. What is sent and what arrives -/

/-- The MSDUs of an originator for a TID, in the order of their sequence numbers, as fragments. -/
structure Traffic where
  msdu : Nat → List (List Byte)
  firstSequenceNumber : Nat
  fragmented : ∀ i, 0 < (msdu i).length ∧ (msdu i).length ≤ 16

/-- A fragment, which may be sent several times. -/
structure Frame where
  msdu : Nat
  fragment : Nat
  retry : Bool
  deriving DecidableEq

section Received

variable (traffic : Traffic)

def Frame.header (f : Frame) : WifiMacHeader where
  groupAddr1 := false
  retry := f.retry
  moreFragments := f.fragment + 1 < (traffic.msdu f.msdu).length
  sequenceNumber := (traffic.firstSequenceNumber + f.msdu) % 4096
  fragmentNumber := f.fragment

def Frame.packet (f : Frame) : List Byte := ((traffic.msdu f.msdu)[f.fragment]?).getD []

/-- The frames of different MSDUs are not interleaved, and a repeated frame says so. -/
structure Transmitted (sent : List Frame) : Prop where
  fragment_lt : ∀ f ∈ sent, f.fragment < (traffic.msdu f.msdu).length
  notInterleaved : sent.Pairwise fun f g => f.msdu ≤ g.msdu
  retry : sent.Pairwise fun f g => f.msdu = g.msdu → f.fragment = g.fragment → g.retry = true

/-- The receiver with what arrived and what was forwarded. -/
structure Received where
  status : OriginatorRxStatus
  arrived : List Frame
  forwarded : List (List Byte)

namespace Received

def start : Received := ⟨.initial, [], []⟩

def step (s : Received) (f : Frame) : Received :=
  let result := receive (f.packet traffic) (f.header traffic) s.status
  ⟨result.1, s.arrived ++ [f], s.forwarded ++ result.2.toList⟩

/-- The fragment has arrived. -/
def Has (s : Received) (i k : Nat) : Prop := ∃ f ∈ s.arrived, f.msdu = i ∧ f.fragment = k

/-- A frame that is filtered is a repeated one. Any other frame is of the MSDU that is reassembled,
and not behind one that was dropped, or it is a first fragment when nothing is reassembled. -/
def Meets (s : Received) (f : Frame) : Prop :=
  if isDuplicate (f.header traffic) s.status then
    ∃ g ∈ s.arrived, g.msdu = f.msdu ∧ g.fragment = f.fragment
  else if s.status.defragmenting then
    (∃ g ∈ s.arrived, g.msdu = f.msdu) ∧ (f.fragment = s.status.fragments.length →
      ∀ g ∈ s.arrived, g.msdu = f.msdu → g.fragment ≤ f.fragment)
  else f.fragment = 0 ∧ ∀ g ∈ s.arrived, g.msdu ≠ f.msdu

/-- A packet was forwarded for each MSDU whose frames have all arrived, and none else. -/
def Right (s : Received) : Prop :=
  ∃ order : List Nat, order.Nodup ∧ s.forwarded = order.map (fun i => (traffic.msdu i).flatten) ∧
    ∀ i, i ∈ order ↔ ∀ k < (traffic.msdu i).length, s.Has i k

end Received

end Received

/-! ## 3. Sequence control -/

section SequenceControl

variable {sn sn' k k' : Nat}

theorem shiftLeft_or (hk : k < 16) : (sn <<< 4) ||| k = sn * 16 + k := by
  rw [← Nat.shiftLeft_add_eq_or_of_lt hk, Nat.shiftLeft_eq]

theorem sequenceControl_parts (sn : Nat) (hk : k < 16) :
    ((sn <<< 4) ||| k) >>> 4 = sn ∧ ((sn <<< 4) ||| k) &&& 0x0f = k := by
  rw [shiftLeft_or hk, Nat.shiftRight_eq_div_pow, Nat.and_two_pow_sub_one_eq_mod _ 4]
  omega

/-- With the number of the MSDU, the next fragment is the one behind the last. -/
theorem isNextFragment_iff {originator : OriginatorRxStatus} (hk : k < 16) (hk' : k' < 16)
    (hlast : originator.lastSequenceControl = (sn <<< 4) ||| k) :
    originator.isNextFragment ((sn <<< 4) ||| k') = true ↔ k' = k + 1 := by
  obtain ⟨hnumber, hfragment⟩ := sequenceControl_parts sn hk
  obtain ⟨hnumber', hfragment'⟩ := sequenceControl_parts sn hk'
  unfold OriginatorRxStatus.isNextFragment
  rw [hlast, hnumber, hnumber', hfragment, hfragment']
  simp

end SequenceControl

/-! ## 4. What a frame does -/

namespace Received

variable {traffic : Traffic} {s : Received} {f : Frame} {order : List Nat} {i c : Nat}

/-- The packets of the MSDUs in `order` were forwarded. -/
structure Sound (traffic : Traffic) (s : Received) (order : List Nat) : Prop where
  increasing : order.Pairwise (· < ·)
  forwarded : s.forwarded = order.map fun i => (traffic.msdu i).flatten
  complete : ∀ i ∈ order, ∀ k < (traffic.msdu i).length, s.Has i k

/-- No reassembly is in progress. -/
structure Between (s : Received) (order : List Nat) : Prop where
  defragmenting : s.status.defragmenting = false
  fragments : s.status.fragments = []
  arrived : ∀ g ∈ s.arrived, g.msdu ∈ order

/-- The first `c` fragments of an MSDU are held. -/
structure Within (traffic : Traffic) (s : Received) (order : List Nat) (i c : Nat) : Prop where
  defragmenting : s.status.defragmenting = true
  fragments : s.status.fragments = (traffic.msdu i).take c
  last : s.status.lastSequenceControl =
    (((traffic.firstSequenceNumber + i) % 4096) <<< 4) ||| (c - 1)
  pos : 0 < c
  lt : c < (traffic.msdu i).length
  held : ∀ k < c, s.Has i k
  next : ¬s.Has i c
  arrived : ∀ g ∈ s.arrived, g.msdu ∈ order ∨ g.msdu = i
  order_lt : ∀ j ∈ order, j < i

def Inv (traffic : Traffic) (s : Received) : Prop :=
  ∃ order, Sound traffic s order ∧ (Between s order ∨ ∃ i c, Within traffic s order i c)

theorem inv_start : Inv traffic start := ⟨[], ⟨.nil, rfl, nofun⟩, .inl ⟨rfl, rfl, nofun⟩⟩

theorem Inv.right (h : Inv traffic s) : Right traffic s := by
  obtain ⟨order, hsound, hstate⟩ := h
  refine ⟨order, hsound.increasing.imp ne_of_lt, hsound.forwarded,
    fun j => ⟨hsound.complete j, fun hall => ?_⟩⟩
  obtain ⟨g, hg, rfl, -⟩ := hall 0 (traffic.fragmented j).1
  rcases hstate with hbetween | ⟨i, c, hwithin⟩
  · exact hbetween.arrived g hg
  · refine (hwithin.arrived g hg).resolve_right fun heq => hwithin.next ?_
    rw [← heq]
    exact hall c (heq ▸ hwithin.lt)

theorem forwarded_step : (s.step traffic f).forwarded =
    s.forwarded ++ (receive (f.packet traffic) (f.header traffic) s.status).2.toList := rfl

theorem has_step {i k : Nat} :
    (s.step traffic f).Has i k ↔ s.Has i k ∨ (f.msdu = i ∧ f.fragment = k) := by
  unfold Has step
  simp only [mem_append, mem_singleton, or_and_right, exists_or, exists_eq_left]

/-- What was forwarded stays what it is when the frame completes nothing. -/
theorem Sound.step_none (h : Sound traffic s order)
    (hnone : (receive (f.packet traffic) (f.header traffic) s.status).2 = none) :
    Sound traffic (s.step traffic f) order where
  increasing := h.increasing
  forwarded := by
    rw [forwarded_step, hnone, Option.toList_none, append_nil]
    exact h.forwarded
  complete := fun i hi k hk => has_step.mpr (.inl (h.complete i hi k hk))

theorem Sound.step_some (h : Sound traffic s order) (hlt : ∀ j ∈ order, j < f.msdu)
    (hsome : (receive (f.packet traffic) (f.header traffic) s.status).2 =
      some (traffic.msdu f.msdu).flatten)
    (hall : ∀ k < (traffic.msdu f.msdu).length, (s.step traffic f).Has f.msdu k) :
    Sound traffic (s.step traffic f) (order ++ [f.msdu]) where
  increasing := by
    refine pairwise_append.mpr ⟨h.increasing, pairwise_singleton _ _, fun j hj i hi => ?_⟩
    rw [mem_singleton.mp hi]
    exact hlt j hj
  forwarded := by
    rw [forwarded_step, hsome, h.forwarded, map_append]
    rfl
  complete := by
    intro i hi k hk
    rcases mem_append.mp hi with hi | hi
    · exact has_step.mpr (.inl (h.complete i hi k hk))
    · obtain rfl := mem_singleton.mp hi
      exact hall k hk

/-- A frame that is filtered or dropped leaves the reassembly as it is. -/
theorem Inv.step_same (hsound : Sound traffic s order)
    (hstate : Between s order ∨ ∃ i c, Within traffic s order i c)
    (hsame : receive (f.packet traffic) (f.header traffic) s.status = (s.status, none))
    (hold : ∃ g ∈ s.arrived, g.msdu = f.msdu)
    (hnext : ∀ i c, Within traffic s order i c → ¬(f.msdu = i ∧ f.fragment = c)) :
    Inv traffic (s.step traffic f) := by
  have hstatus : (s.step traffic f).status = s.status := congrArg Prod.fst hsame
  obtain ⟨g, hg, hmsdu⟩ := hold
  refine ⟨order, hsound.step_none (congrArg Prod.snd hsame), ?_⟩
  rcases hstate with hbetween | ⟨i, c, hwithin⟩
  · refine .inl ⟨hstatus ▸ hbetween.defragmenting, hstatus ▸ hbetween.fragments, ?_⟩
    refine forall_mem_append.mpr ⟨hbetween.arrived, forall_mem_singleton.mpr ?_⟩
    exact hmsdu ▸ hbetween.arrived g hg
  · refine .inr ⟨i, c, ?_⟩
    exact {
      defragmenting := hstatus ▸ hwithin.defragmenting
      fragments := hstatus ▸ hwithin.fragments
      last := hstatus ▸ hwithin.last
      pos := hwithin.pos
      lt := hwithin.lt
      held := fun k hk => has_step.mpr (.inl (hwithin.held k hk))
      next := fun hhas => (has_step.mp hhas).elim hwithin.next (hnext i c hwithin)
      arrived := forall_mem_append.mpr ⟨hwithin.arrived,
        forall_mem_singleton.mpr (hmsdu ▸ hwithin.arrived g hg)⟩
      order_lt := hwithin.order_lt }

theorem take_concat_packet (hk : f.fragment < (traffic.msdu f.msdu).length) :
    (traffic.msdu f.msdu).take f.fragment ++ [f.packet traffic] =
      (traffic.msdu f.msdu).take (f.fragment + 1) := by
  rw [take_add_one, Frame.packet, getElem?_eq_getElem hk]
  rfl

theorem Within.length_fragments (h : Within traffic s order i c) :
    s.status.fragments.length = c := by
  rw [h.fragments, length_take, min_eq_left h.lt.le]

theorem Inv.step_within (hsound : Sound traffic s order) (hwithin : Within traffic s order f.msdu c)
    (hk : f.fragment < (traffic.msdu f.msdu).length)
    (hfilter : isDuplicate (f.header traffic) s.status = false)
    (hmeets : f.fragment = c → ∀ g ∈ s.arrived, g.msdu = f.msdu → g.fragment ≤ f.fragment) :
    Inv traffic (s.step traffic f) := by
  have hsmall := (traffic.fragmented f.msdu).2
  have hlt := hwithin.lt
  have hpos := hwithin.pos
  have hnext : s.status.isNextFragment (f.header traffic).sequenceControl = true ↔
      f.fragment = c := by
    rw [← Nat.sub_add_cancel hpos]
    exact isNextFragment_iff (by omega) (hk.trans_le hsmall) hwithin.last
  rcases ne_or_eq f.fragment c with hother | hthis
  · -- the frame is dropped
    have hno : s.status.isNextFragment (f.header traffic).sequenceControl = false :=
      Bool.eq_false_iff.mpr fun hyes => hother (hnext.mp hyes)
    refine Inv.step_same hsound (.inr ⟨f.msdu, c, hwithin⟩) ?_ ?_ fun i c' hwithin' heq => ?_
    · simp [receive, handleFragments, hfilter, hwithin.defragmenting, hno]
    · obtain ⟨g, hg, hmsdu, -⟩ := hwithin.held 0 hpos
      exact ⟨g, hg, hmsdu⟩
    · rw [← hwithin'.length_fragments, hwithin.length_fragments] at heq
      exact hother heq.2
  · have hyes := hnext.mpr hthis
    have hheld : s.status.fragments ++ [f.packet traffic] = (traffic.msdu f.msdu).take (c + 1) := by
      rw [hwithin.fragments, ← hthis, take_concat_packet hk]
    have hall : ∀ k < c + 1, (s.step traffic f).Has f.msdu k := by
      intro k hkc
      rcases (Nat.lt_succ_iff_lt_or_eq.mp hkc) with hkc | rfl
      · exact has_step.mpr (.inl (hwithin.held k hkc))
      · exact has_step.mpr (.inr ⟨rfl, hthis⟩)
    by_cases hmore : c + 1 < (traffic.msdu f.msdu).length
    · -- one more fragment is held
      have hreceive : receive (f.packet traffic) (f.header traffic) s.status =
          ((s.status.accumulateFragment (f.packet traffic)).setSequenceControl
            (f.header traffic).sequenceControl, none) := by
        have hmf : (f.header traffic).moreFragments = true := decide_eq_true (hthis.symm ▸ hmore)
        simp [receive, handleFragments, hfilter, hwithin.defragmenting, hyes, hmf]
      have hstatus := congrArg Prod.fst hreceive
      refine ⟨order, hsound.step_none (congrArg Prod.snd hreceive), .inr ⟨f.msdu, c + 1, ?_⟩⟩
      exact {
        defragmenting := (congrArg OriginatorRxStatus.defragmenting hstatus).trans
          hwithin.defragmenting
        fragments := (congrArg OriginatorRxStatus.fragments hstatus).trans hheld
        last := by
          refine (congrArg OriginatorRxStatus.lastSequenceControl hstatus).trans ?_
          rw [Nat.add_sub_cancel, ← hthis]
          rfl
        pos := Nat.succ_pos c
        lt := hmore
        held := hall
        next := fun hhas => by
          rcases has_step.mp hhas with ⟨g, hg, hmsdu, hfragment⟩ | ⟨-, hfragment⟩
          · have hle := hmeets hthis g hg hmsdu
            omega
          · omega
        arrived := forall_mem_append.mpr ⟨hwithin.arrived, forall_mem_singleton.mpr (.inr rfl)⟩
        order_lt := hwithin.order_lt }
    · -- the MSDU is complete
      have hlast : c + 1 = (traffic.msdu f.msdu).length := by omega
      have hreceive : receive (f.packet traffic) (f.header traffic) s.status =
          (⟨false, (f.header traffic).sequenceControl, []⟩,
            some (traffic.msdu f.msdu).flatten) := by
        have hmf : (f.header traffic).moreFragments = false := decide_eq_false (hthis.symm ▸ hmore)
        have hfull : s.status.fragments ++ [f.packet traffic] = traffic.msdu f.msdu := by
          rw [hheld, hlast, take_length]
        have hunicast : (f.header traffic).groupAddr1 = false := rfl
        simp [receive, handleFragments, hfilter, hwithin.defragmenting, hyes, hmf, hunicast,
          OriginatorRxStatus.accumulateLastFragment, OriginatorRxStatus.setSequenceControl,
          ← hfull]
      refine ⟨order ++ [f.msdu], hsound.step_some hwithin.order_lt (congrArg Prod.snd hreceive)
        fun k hk => hall k (hlast ▸ hk), .inl ⟨?_, ?_, ?_⟩⟩
      · exact congrArg OriginatorRxStatus.defragmenting (congrArg Prod.fst hreceive)
      · exact congrArg OriginatorRxStatus.fragments (congrArg Prod.fst hreceive)
      · refine forall_mem_append.mpr ⟨fun g hg => ?_, forall_mem_singleton.mpr ?_⟩
        · exact mem_append.mpr ((hwithin.arrived g hg).imp_right mem_singleton.mpr)
        · exact mem_append_right _ (mem_singleton_self _)

theorem Inv.step_between (hsound : Sound traffic s order) (hbetween : Between s order)
    (hfilter : isDuplicate (f.header traffic) s.status = false) (hfirst : f.fragment = 0)
    (hnew : ∀ g ∈ s.arrived, g.msdu ≠ f.msdu) (hle : ∀ g ∈ s.arrived, g.msdu ≤ f.msdu) :
    Inv traffic (s.step traffic f) := by
  have hpos := (traffic.fragmented f.msdu).1
  have hlt : ∀ j ∈ order, j < f.msdu := by
    intro j hj
    obtain ⟨g, hg, rfl, -⟩ := hsound.complete j hj 0 (traffic.fragmented j).1
    exact lt_of_le_of_ne (hle g hg) (hnew g hg)
  have hhas : (s.step traffic f).Has f.msdu 0 := has_step.mpr (.inr ⟨rfl, hfirst⟩)
  have htake : [f.packet traffic] = (traffic.msdu f.msdu).take 1 := by
    have hconcat : _ ++ [f.packet traffic] = _ := take_concat_packet (hfirst.trans_lt hpos)
    rwa [hfirst, take_zero, nil_append] at hconcat
  by_cases hmore : 1 < (traffic.msdu f.msdu).length
  · have hreceive : receive (f.packet traffic) (f.header traffic) s.status =
        (⟨true, (f.header traffic).sequenceControl, [f.packet traffic]⟩, none) := by
      have hmf : (f.header traffic).moreFragments = true :=
        decide_eq_true (by rw [hfirst]; exact hmore)
      simp [receive, handleFragments, hfilter, hbetween.defragmenting, hbetween.fragments, hmf,
        OriginatorRxStatus.accumulateFirstFragment, OriginatorRxStatus.setSequenceControl]
    have hstatus := congrArg Prod.fst hreceive
    refine ⟨order, hsound.step_none (congrArg Prod.snd hreceive), .inr ⟨f.msdu, 1, ?_⟩⟩
    exact {
      defragmenting := congrArg OriginatorRxStatus.defragmenting hstatus
      fragments := (congrArg OriginatorRxStatus.fragments hstatus).trans htake
      last := by
        refine (congrArg OriginatorRxStatus.lastSequenceControl hstatus).trans ?_
        rw [Nat.sub_self, ← hfirst]
        rfl
      pos := one_pos
      lt := hmore
      held := fun k hk => by
        rw [Nat.lt_one_iff.mp hk]
        exact hhas
      next := fun hnext => by
        rcases has_step.mp hnext with ⟨g, hg, hmsdu, -⟩ | ⟨-, hfragment⟩
        · exact hnew g hg hmsdu
        · exact absurd (hfirst.symm.trans hfragment) Nat.zero_ne_one
      arrived := forall_mem_append.mpr ⟨fun g hg => .inl (hbetween.arrived g hg),
        forall_mem_singleton.mpr (.inr rfl)⟩
      order_lt := hlt }
  · have hone : (traffic.msdu f.msdu).length = 1 := by omega
    have hreceive : receive (f.packet traffic) (f.header traffic) s.status =
        (⟨false, (f.header traffic).sequenceControl, []⟩, some (traffic.msdu f.msdu).flatten) := by
      have hmf : (f.header traffic).moreFragments = false :=
        decide_eq_false (by rw [hfirst]; exact hmore)
      have hfull : traffic.msdu f.msdu = [f.packet traffic] := by
        rw [htake, take_of_length_le hone.le]
      have hunicast : (f.header traffic).groupAddr1 = false := rfl
      rw [hfull]
      simp [receive, handleFragments, hfilter, hbetween.defragmenting, hbetween.fragments, hmf,
        hunicast, OriginatorRxStatus.setSequenceControl]
    refine ⟨order ++ [f.msdu], hsound.step_some hlt (congrArg Prod.snd hreceive)
      fun k hk => ?_, .inl ⟨?_, ?_, ?_⟩⟩
    · rw [hone, Nat.lt_one_iff] at hk
      rw [hk]
      exact hhas
    · exact congrArg OriginatorRxStatus.defragmenting (congrArg Prod.fst hreceive)
    · exact congrArg OriginatorRxStatus.fragments (congrArg Prod.fst hreceive)
    · refine forall_mem_append.mpr ⟨fun g hg => ?_, forall_mem_singleton.mpr ?_⟩
      · exact mem_append_left _ (hbetween.arrived g hg)
      · exact mem_append_right _ (mem_singleton_self _)

theorem Inv.step (h : Inv traffic s) (hk : f.fragment < (traffic.msdu f.msdu).length)
    (hle : ∀ g ∈ s.arrived, g.msdu ≤ f.msdu) (hmeets : Meets traffic s f) :
    Inv traffic (s.step traffic f) := by
  obtain ⟨order, hsound, hstate⟩ := h
  unfold Meets at hmeets
  split at hmeets
  · next hfilter =>
    obtain ⟨g, hg, hmsdu, hfragment⟩ := hmeets
    refine Inv.step_same hsound hstate (if_pos hfilter) ⟨g, hg, hmsdu⟩ fun i c hwithin heq => ?_
    exact hwithin.next ⟨g, hg, hmsdu.trans heq.1, hfragment.trans heq.2⟩
  next hfilter =>
  have hfilter := Bool.eq_false_iff.mpr hfilter
  rcases hstate with hbetween | ⟨i, c, hwithin⟩
  · rw [hbetween.defragmenting, if_neg Bool.false_ne_true] at hmeets
    exact Inv.step_between hsound hbetween hfilter hmeets.1 hmeets.2 hle
  · rw [hwithin.defragmenting, if_pos rfl, hwithin.length_fragments] at hmeets
    obtain ⟨⟨g, hg, hmsdu⟩, hbehind⟩ := hmeets
    -- the MSDU that is reassembled is the last one of which a frame has come
    have hcur : f.msdu = i := by
      obtain ⟨g₀, hg₀, hmsdu₀, -⟩ := hwithin.held 0 hwithin.pos
      refine hmsdu ▸ (hwithin.arrived g hg).resolve_left fun hdone => ?_
      have hbefore := hwithin.order_lt _ hdone
      have hafter := hle g₀ hg₀
      rw [hmsdu] at hbefore
      rw [hmsdu₀] at hafter
      exact absurd hbefore (not_lt.mpr hafter)
    subst hcur
    exact Inv.step_within hsound hwithin hk hfilter hbehind

theorem inv_foldl {frames : List Frame} (h : Inv traffic s)
    (hk : ∀ f ∈ frames, f.fragment < (traffic.msdu f.msdu).length)
    (horder : (s.arrived ++ frames).Pairwise fun f g => f.msdu ≤ g.msdu)
    (hmeets : Guarded (step traffic) (Meets traffic) s frames) :
    Inv traffic (frames.foldl (step traffic) s) := by
  induction frames generalizing s with
  | nil => exact h
  | cons f frames ih =>
    obtain ⟨hkf, hk⟩ := forall_mem_cons.mp hk
    refine ih (h.step hkf (fun g hg => ?_) hmeets.1) hk ?_ hmeets.2
    · exact (pairwise_append.mp horder).2.2 g hg f mem_cons_self
    · rw [append_cons] at horder
      exact horder

end Received

/-! ## 5. Results -/

open Received

/-- Whatever is lost of what was sent: when every frame that arrives meets the condition, the
packets that are forwarded are right all along. -/
theorem forwarded_of_meets (traffic : Traffic) {sent arrived : List Frame}
    (hsent : Transmitted traffic sent) (hlost : arrived.Sublist sent)
    (hmeets : Guarded (step traffic) (Meets traffic) start arrived) :
    ∀ pre, pre <+: arrived → Right traffic (pre.foldl (step traffic) start) := by
  rintro pre ⟨rest, rfl⟩
  have hsub : pre.Sublist sent := (List.sublist_append_left pre rest).trans hlost
  exact (inv_foldl inv_start (fun f hf => hsent.fragment_lt f (hsub.subset hf))
    (hsent.notInterleaved.sublist hsub) (guarded_append.mp hmeets).1).right

instance (traffic : Traffic) (s : Received) (f : Frame) : Decidable (Meets traffic s f) :=
  inferInstanceAs (Decidable (if isDuplicate (f.header traffic) s.status = true then
      ∃ g ∈ s.arrived, g.msdu = f.msdu ∧ g.fragment = f.fragment
    else if s.status.defragmenting = true then
      (∃ g ∈ s.arrived, g.msdu = f.msdu) ∧ (f.fragment = s.status.fragments.length →
        ∀ g ∈ s.arrived, g.msdu = f.msdu → g.fragment ≤ f.fragment)
    else f.fragment = 0 ∧ ∀ g ∈ s.arrived, g.msdu ≠ f.msdu))

/-- An MSDU of two fragments, and others of one. -/
def oneFragmented : Traffic where
  msdu i := if i = 0 then [[1], [2]] else [[3]]
  firstSequenceNumber := 0
  fragmented i := by
    split <;> decide

/-- The first fragment is repeated. -/
def firstRepeated : List Frame := [⟨0, 0, false⟩, ⟨0, 0, true⟩, ⟨0, 1, false⟩, ⟨1, 0, false⟩]

theorem forwarded_of_meets_firstRepeated :
    Right oneFragmented (firstRepeated.foldl (step oneFragmented) start) :=
  forwarded_of_meets oneFragmented
    (⟨by decide, by decide, by decide⟩ : Transmitted oneFragmented firstRepeated)
    (List.Sublist.refl _) ⟨by decide, by decide, by decide, by decide, trivial⟩ _ List.prefix_rfl

/-- The first MSDU is abandoned after its first fragment, and the next one is not forwarded. -/
theorem abandoned_msdu_blocks :
    ¬∀ (traffic : Traffic) (sent arrived : List Frame), Transmitted traffic sent →
      arrived.Sublist sent → Right traffic (arrived.foldl (step traffic) start) := by
  intro hall
  obtain ⟨order, -, hforwarded, hiff⟩ := hall oneFragmented [⟨0, 0, false⟩, ⟨1, 0, false⟩]
    [⟨0, 0, false⟩, ⟨1, 0, false⟩] ⟨by decide, by decide, by decide⟩ (List.Sublist.refl _)
  have hmem : 1 ∈ order := (hiff 1).mpr fun k hk =>
    ⟨⟨1, 0, false⟩, by decide, rfl, (Nat.lt_one_iff.mp hk).symm⟩
  have hnone : ([] : List (List Byte)) = order.map _ := hforwarded
  rw [List.map_eq_nil_iff.mp hnone.symm] at hmem
  exact absurd hmem List.not_mem_nil

end MoeJit.Wifi
