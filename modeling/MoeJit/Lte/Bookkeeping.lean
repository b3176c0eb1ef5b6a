import Mathlib.Algebra.BigOperators.Group.Finset.Basic
import MoeJit.Lte.LteRlcAm

/-!
# What a sender knows about its PDUs

Every PDU that was sent and not acknowledged is in a slot of `txedBuffer` or of `retxBuffer`, and
nothing else is in them (`Stored`). Two PDUs would share a slot only when they are 1024 numbers
apart, and the window is 512 wide.

`VT(A)` is moved over what a STATUS PDU acknowledges, but not over what an earlier one has: it can
stay at a number that has been acknowledged (`vtA_acknowledged`). Where this does not happen, the
bookkeeping is right in every state of a run (`bookkeeping_of_run`).
-/

namespace MoeJit.Lte

open SequenceNumber10 (place)
open Bool (eq_false_iff false_ne_true not_eq_true')
open SequenceNumber10 (lt_place setModulusBase setModulusBase_place succ_place value_place)

/-! ## 1. Slots -/

def slotSize (content : Option Pdu) : Nat := (content.map List.length).getD 0

@[simp] theorem slotSize_none : slotSize none = 0 := rfl

@[simp] theorem slotSize_some (pdu : Pdu) : slotSize (some pdu) = pdu.length := rfl

def storedSize (buffer : Nat → Option Pdu) : Nat := ∑ i ∈ Finset.range 1024, slotSize (buffer i)

theorem storedSize_setSlot (buffer : Nat → Option Pdu) {i : Nat} (hi : i < 1024)
    (content : Option Pdu) :
    storedSize (setSlot buffer i content) + slotSize (buffer i) =
      storedSize buffer + slotSize content := by
  have hmem : i ∈ Finset.range 1024 := Finset.mem_range.mpr hi
  have hset := Finset.add_sum_erase _ (fun j => slotSize (setSlot buffer i content j)) hmem
  have hold := Finset.add_sum_erase _ (fun j => slotSize (buffer j)) hmem
  have hrest : ∑ j ∈ (Finset.range 1024).erase i, slotSize (setSlot buffer i content j) =
      ∑ j ∈ (Finset.range 1024).erase i, slotSize (buffer j) :=
    Finset.sum_congr rfl fun j hj => by rw [setSlot_of_ne (Finset.ne_of_mem_erase hj)]
  rw [setSlot_self, hrest] at hset
  unfold storedSize
  rw [← hset, ← hold]
  generalize ∑ j ∈ (Finset.range 1024).erase i, slotSize (buffer j) = rest
  omega

/-- The size of a buffer, in 32 bits. -/
def Sized (buffer : Nat → Option Pdu) (size : BitVec 32) : Prop :=
  size = BitVec.ofNat 32 (storedSize buffer)

section Sized

variable {buffer : Nat → Option Pdu} {size : BitVec 32} {i : Nat} {pdu : Pdu}

theorem Sized.put (h : Sized buffer size) (hi : i < 1024) (hnone : buffer i = none) :
    Sized (setSlot buffer i (some pdu)) (size + sizeOf pdu) := by
  have hset := storedSize_setSlot buffer hi (some pdu)
  rw [hnone, slotSize_none, slotSize_some, add_zero] at hset
  rw [Sized, hset, BitVec.ofNat_add, ← h, sizeOf]

theorem Sized.take (h : Sized buffer size) (hi : i < 1024) (hsome : buffer i = some pdu) :
    Sized (setSlot buffer i none) (size - sizeOf pdu) := by
  have hset := storedSize_setSlot buffer hi none
  rw [hsome, slotSize_none, slotSize_some, add_zero] at hset
  rw [Sized, h, ← hset, BitVec.ofNat_add]
  exact BitVec.add_sub_cancel _ _

end Sized

/-- The PDU is in exactly one of the buffers. -/
def LteRlcAm.Holds (rlc : LteRlcAm) (i : Nat) (pdu : Pdu) : Prop :=
  (rlc.txedBuffer i = some pdu ∧ rlc.retxBuffer i = none) ∨
    (rlc.txedBuffer i = none ∧ rlc.retxBuffer i = some pdu)

def LteRlcAm.Vacant (rlc : LteRlcAm) (i : Nat) : Prop :=
  rlc.txedBuffer i = none ∧ rlc.retxBuffer i = none

/-- The PDUs that are due, by their numbers, are what the buffers hold. -/
structure Stored (rlc : LteRlcAm) (sent : List Pdu) (due : Nat → Prop) : Prop where
  sent_of_due : ∀ x, due x → x < sent.length
  holds : ∀ x pdu, due x → sent[x]? = some pdu → rlc.Holds (x % 1024) pdu
  vacant : ∀ i, (∀ x, due x → x % 1024 ≠ i) → rlc.Vacant i
  txed : Sized rlc.txedBuffer rlc.txedBufferSize
  retx : Sized rlc.retxBuffer rlc.retxBufferSize

/-- The numbers that are due are within a turn. -/
def InTurn (base : Nat) (due : Nat → Prop) : Prop := ∀ x, due x → base ≤ x ∧ x < base + 1024

theorem mod_ne_of_turn {base x y : Nat} (hx : base ≤ x ∧ x < base + 1024)
    (hy : base ≤ y ∧ y < base + 1024) (hne : x ≠ y) : x % 1024 ≠ y % 1024 := by omega

section Stored

variable {rlc rlc' : LteRlcAm} {sent : List Pdu} {due due' : Nat → Prop} {i x : Nat} {pdu : Pdu}

section

variable (h : Stored rlc sent due)
include h

theorem Stored.congr (hiff : ∀ x, due x ↔ due' x) : Stored rlc sent due' := by
  rwa [← funext fun x => propext (hiff x)]

theorem Stored.holds_of_due (hx : due x) : ∃ pdu, sent[x]? = some pdu ∧ rlc.Holds (x % 1024) pdu :=
  ⟨_, List.getElem?_eq_getElem (h.sent_of_due x hx),
    h.holds x _ hx (List.getElem?_eq_getElem (h.sent_of_due x hx))⟩

theorem Stored.exists_due (hslot : rlc.txedBuffer i = some pdu ∨ rlc.retxBuffer i = some pdu) :
    ∃ x, due x ∧ x % 1024 = i := by
  by_contra hnone
  obtain ⟨htxed, hretx⟩ := h.vacant i fun x hx hi => hnone ⟨x, hx, hi⟩
  rcases hslot with hslot | hslot
  · rw [htxed] at hslot
    cases hslot
  · rw [hretx] at hslot
    cases hslot

theorem Stored.slot_lt (hslot : rlc.txedBuffer i = some pdu ∨ rlc.retxBuffer i = some pdu) :
    i < 1024 := by
  obtain ⟨x, -, rfl⟩ := h.exists_due hslot
  exact Nat.mod_lt _ (by decide)

theorem Stored.retx_eq_none (hslot : rlc.txedBuffer i = some pdu) : rlc.retxBuffer i = none := by
  obtain ⟨x, hx, rfl⟩ := h.exists_due (.inl hslot)
  obtain ⟨_, -, ⟨-, hnone⟩ | ⟨hnone, -⟩⟩ := h.holds_of_due hx
  · exact hnone
  · rw [hnone] at hslot
    cases hslot

theorem Stored.txed_eq_none (hslot : rlc.retxBuffer i = some pdu) : rlc.txedBuffer i = none := by
  cases htxed : rlc.txedBuffer i with
  | none => rfl
  | some other =>
    rw [h.retx_eq_none htxed] at hslot
    cases hslot

/-- Only the slot is changed, from one of the buffers to the other. -/
theorem Stored.exchange (hslot : rlc.txedBuffer i = some pdu ∨ rlc.retxBuffer i = some pdu)
    (hne : ∀ j, j ≠ i → rlc'.txedBuffer j = rlc.txedBuffer j ∧ rlc'.retxBuffer j = rlc.retxBuffer j)
    (hself : rlc'.Holds i pdu) (htxed : Sized rlc'.txedBuffer rlc'.txedBufferSize)
    (hretx : Sized rlc'.retxBuffer rlc'.retxBufferSize) : Stored rlc' sent due := by
  refine ⟨h.sent_of_due, fun x p hx hp => ?_, fun j hj => ?_, htxed, hretx⟩
  · have hold := h.holds x p hx hp
    rcases eq_or_ne (x % 1024) i with rfl | hxi
    · have hsame : p = pdu := by
        rcases hslot with hslot | hslot <;> rcases hold with ⟨ht, hr⟩ | ⟨ht, hr⟩ <;> simp_all
      rw [hsame]
      exact hself
    · unfold LteRlcAm.Holds
      rw [(hne _ hxi).1, (hne _ hxi).2]
      exact hold
  · have hji : j ≠ i := by
      rintro rfl
      obtain ⟨x, hx, hxj⟩ := h.exists_due hslot
      exact hj x hx hxj
    unfold LteRlcAm.Vacant
    rw [(hne j hji).1, (hne j hji).2]
    exact h.vacant j hj

theorem Stored.remove {base : Nat} (hturn : InTurn base due) (hx : due x) (hne : ∀ j, j ≠ x % 1024 →
      rlc'.txedBuffer j = rlc.txedBuffer j ∧ rlc'.retxBuffer j = rlc.retxBuffer j)
    (hself : rlc'.Vacant (x % 1024)) (htxed : Sized rlc'.txedBuffer rlc'.txedBufferSize)
    (hretx : Sized rlc'.retxBuffer rlc'.retxBufferSize) :
    Stored rlc' sent fun y => due y ∧ y ≠ x := by
  refine ⟨fun y hy => h.sent_of_due y hy.1, fun y p hy hp => ?_, fun j hj => ?_, htxed, hretx⟩
  · have hyx : y % 1024 ≠ x % 1024 := mod_ne_of_turn (hturn y hy.1) (hturn x hx) hy.2
    unfold LteRlcAm.Holds
    rw [(hne _ hyx).1, (hne _ hyx).2]
    exact h.holds y p hy.1 hp
  · rcases eq_or_ne j (x % 1024) with rfl | hjx
    · exact hself
    · unfold LteRlcAm.Vacant
      rw [(hne j hjx).1, (hne j hjx).2]
      refine h.vacant j fun y hy hyj => ?_
      rcases eq_or_ne y x with rfl | hyx
      · exact hjx hyj.symm
      · exact hj y ⟨hy, hyx⟩ hyj

end

theorem Stored.append (h : Stored rlc sent due) (hfree : ∀ x, due x → x % 1024 ≠ sent.length % 1024)
    (hne : ∀ j, j ≠ sent.length % 1024 → rlc'.txedBuffer j = rlc.txedBuffer j)
    (hself : rlc'.txedBuffer (sent.length % 1024) = some pdu)
    (hsame : rlc'.retxBuffer = rlc.retxBuffer)
    (htxed : Sized rlc'.txedBuffer rlc'.txedBufferSize)
    (hretx : Sized rlc'.retxBuffer rlc'.retxBufferSize) :
    Stored rlc' (sent ++ [pdu]) fun y => due y ∨ y = sent.length := by
  refine ⟨fun y hy => ?_, fun y p hy hp => ?_, fun j hj => ?_, htxed, hretx⟩
  · rw [List.length_append, List.length_singleton]
    rcases hy with hy | rfl
    · exact (h.sent_of_due y hy).trans (Nat.lt_succ_self _)
    · exact Nat.lt_succ_self _
  · rcases hy with hy | rfl
    · rw [List.getElem?_append_left (h.sent_of_due y hy)] at hp
      unfold LteRlcAm.Holds
      rw [hne _ (hfree y hy), hsame]
      exact h.holds y p hy hp
    · rw [List.getElem?_concat_length] at hp
      rw [← Option.some.inj hp]
      refine .inl ⟨hself, ?_⟩
      rw [hsame]
      exact (h.vacant _ hfree).2
  · unfold LteRlcAm.Vacant
    rw [hne j (hj _ (.inr rfl)).symm, hsame]
    exact h.vacant j fun y hy => hj y (.inl hy)

end Stored

/-! ## 2. The window -/

/-- The state variables, with `VT(A)` as the base of all of them. -/
structure OnLine (rlc : LteRlcAm) (base next : Nat) : Prop where
  vtA : rlc.vtA = place base base
  vtS : rlc.vtS = place base next
  vtMs : rlc.vtMs = place base (base + windowSize)

theorem OnLine.incrementVtA {rlc : LteRlcAm} {base next : Nat} (h : OnLine rlc base next) :
    OnLine rlc.incrementVtA (base + 1) next := by
  constructor <;> simp [LteRlcAm.incrementVtA, h.vtA, h.vtS]

/-- Nothing of the window is changed. -/
def SameWindow (rlc rlc' : LteRlcAm) : Prop :=
  rlc'.vtA = rlc.vtA ∧ rlc'.vtS = rlc.vtS ∧ rlc'.vtMs = rlc.vtMs

theorem SameWindow.onLine {rlc rlc' : LteRlcAm} (hsame : SameWindow rlc rlc') {base next : Nat}
    (h : OnLine rlc base next) : OnLine rlc' base next :=
  ⟨hsame.1.trans h.vtA, hsame.2.1.trans h.vtS, hsame.2.2.trans h.vtMs⟩

/-! ## 3. The operations on a slot -/

section Slots

variable {rlc rlc' : LteRlcAm} {sent : List Pdu} {due : Nat → Prop} {i x : Nat} {pdu : Pdu}

section

variable (h : Stored rlc sent due)
include h

theorem stored_moveToRetxBuffer (hslot : rlc.txedBuffer i = some pdu) :
    Stored (rlc.moveToRetxBuffer i pdu) sent due := by
  have hi := h.slot_lt (.inl hslot)
  refine h.exchange (.inl hslot) (fun j hj => ⟨setSlot_of_ne hj _ _, setSlot_of_ne hj _ _⟩) ?_
    (h.txed.take hi hslot) (h.retx.put hi (h.retx_eq_none hslot))
  exact .inr ⟨setSlot_self _ _ _, setSlot_self _ _ _⟩

theorem stored_sendAgain {packet : Pdu}
    (hslot : rlc.retxBuffer i = some pdu) (hsend : rlc.sendAgain i pdu = some (rlc', packet)) :
    Stored rlc' sent due ∧ SameWindow rlc rlc' := by
  obtain ⟨header, data, reason, -, -, rfl⟩ := LteRlcAm.exists_of_sendAgain hsend
  have hi := h.slot_lt (.inr hslot)
  refine ⟨h.exchange (.inr hslot) (fun j hj => ⟨setSlot_of_ne hj _ _, setSlot_of_ne hj _ _⟩) ?_
    (h.txed.put hi (h.txed_eq_none hslot)) (h.retx.take hi hslot), ?_⟩
  · exact .inl ⟨setSlot_self _ _ _, setSlot_self _ _ _⟩
  · exact ⟨LteRlcAm.poll_vtA _ _ _, LteRlcAm.poll_vtS _ _ _, LteRlcAm.poll_vtMs _ _ _⟩

theorem exists_nacked (hx : due x) :
    ∃ rlc', rlc.nacked (x % 1024) = some rlc' ∧ Stored rlc' sent due ∧ SameWindow rlc rlc' := by
  obtain ⟨pdu, -, ⟨htxed, -⟩ | ⟨htxed, hretx⟩⟩ := h.holds_of_due hx
  · refine ⟨rlc.moveToRetxBuffer (x % 1024) pdu, ?_, stored_moveToRetxBuffer h htxed, rfl, rfl, rfl⟩
    unfold LteRlcAm.nacked
    rw [htxed]
    exact if_pos (by simp [LteRlcAm.moveToRetxBuffer])
  · refine ⟨rlc, ?_, h, rfl, rfl, rfl⟩
    unfold LteRlcAm.nacked
    rw [htxed]
    exact if_pos (by rw [hretx]; rfl)

theorem exists_acked {base : Nat} (hturn : InTurn base due) (hx : due x) :
    ∃ rlc', rlc.acked (x % 1024) = some rlc' ∧ Stored rlc' sent (fun y => due y ∧ y ≠ x) ∧
      SameWindow rlc rlc' := by
  have hi : x % 1024 < 1024 := Nat.mod_lt _ (by decide)
  obtain ⟨pdu, -, ⟨htxed, hretx⟩ | ⟨htxed, hretx⟩⟩ := h.holds_of_due hx
  · refine ⟨{ rlc with
        txedBufferSize := rlc.txedBufferSize - sizeOf pdu
        txedBuffer := setSlot rlc.txedBuffer (x % 1024) none }, ?_, ?_, rfl, rfl, rfl⟩
    · simp [LteRlcAm.acked, htxed, hretx]
    · exact h.remove hturn hx (fun j hj => ⟨setSlot_of_ne hj _ _, rfl⟩)
        ⟨setSlot_self _ _ _, hretx⟩ (h.txed.take hi htxed) h.retx
  · refine ⟨{ rlc with
        retxBufferSize := rlc.retxBufferSize - sizeOf pdu
        retxBuffer := setSlot rlc.retxBuffer (x % 1024) none }, ?_, ?_, rfl, rfl, rfl⟩
    · simp [LteRlcAm.acked, htxed, hretx]
    · exact h.remove hturn hx (fun j hj => ⟨rfl, setSlot_of_ne hj _ _⟩)
        ⟨htxed, setSlot_self _ _ _⟩ h.txed (h.retx.take hi hretx)

end

theorem acked_of_vacant (hvacant : rlc.Vacant i) : rlc.acked i = some rlc := by
  simp [LteRlcAm.acked, hvacant.1, hvacant.2]

end Slots

/-! ## 4. The loops -/

section StatusLoop

variable {rlc : LteRlcAm} {sent : List Pdu} {due : Nat → Prop} {header : LteRlcAmHeader}

/-- A NACK for the number. -/
def LteRlcAmHeader.Nacks (header : LteRlcAmHeader) (x : Nat) : Prop :=
  header.isNackPresent (.ofValue x) = true

/-- What is done in one round of the loop, before `VT(A)` is moved. -/
theorem exists_statusRound (base : Nat) {x first : Nat} (h : Stored rlc sent due)
    (hturn : InTurn first due) (hx : first ≤ x ∧ x < first + 1024)
    (hnack : header.Nacks x → due x) :
    ∃ rlc', LteRlcAm.statusRound header rlc (place base x) = some rlc' ∧
      Stored rlc' sent (fun y => due y ∧ (y = x → header.Nacks x)) ∧ SameWindow rlc rlc' := by
  have hstored (running : Bool) :
      Stored { rlc with pollRetransmitTimerRunning := running } sent due :=
    ⟨h.sent_of_due, h.holds, h.vacant, h.txed, h.retx⟩
  by_cases hpresent : header.Nacks x
  · obtain ⟨rlc', hnacked, hstored', hsame⟩ := exists_nacked (hstored _) (hnack hpresent)
    exact ⟨rlc', (if_pos hpresent).trans hnacked,
      hstored'.congr fun y => (and_iff_left fun _ => hpresent).symm, hsame⟩
  · by_cases hdue : due x
    · obtain ⟨rlc', hacked, hstored', hsame⟩ := exists_acked (hstored _) hturn hdue
      refine ⟨rlc', (if_neg hpresent).trans hacked,
        hstored'.congr fun y => and_congr_right fun _ => ?_, hsame⟩
      exact ⟨fun hne heq => absurd heq hne, fun himp heq => hpresent (himp heq)⟩
    · refine ⟨_, (if_neg hpresent).trans (acked_of_vacant ((hstored _).vacant _ fun y hy => ?_)),
        (hstored _).congr fun y => ?_, rfl, rfl, rfl⟩
      · refine mod_ne_of_turn (hturn y hy) hx ?_
        rintro rfl
        exact hdue hy
      · refine (and_iff_left_of_imp fun hy heq => ?_).symm
        rw [heq] at hy
        exact absurd hy hdue

/-- The loop from `x` on. `VT(A)` is moved as long as nothing is missing. -/
theorem exists_statusLoop (rounds : Nat) (increment : Bool) {first base x ack next : Nat}
    (hline : OnLine rlc base next) (hstored : Stored rlc sent due) (hturn : InTurn first due)
    (hfirst : first ≤ base) (hbase : base ≤ x) (hx : increment = true → x = base)
    (hxack : x ≤ ack) (hack : ack ≤ next) (hnext : next ≤ first + windowSize)
    (hnack : ∀ y, x ≤ y → y < ack → header.Nacks y → due y) (hrounds : ack < x + rounds) :
    ∃ rlc' base', LteRlcAm.statusLoop header rounds rlc (place base x) (place base ack) increment =
        some rlc' ∧
      OnLine rlc' base' next ∧
      Stored rlc' sent (fun y => due y ∧ (x ≤ y → y < ack → header.Nacks y)) ∧
      base ≤ base' ∧ base' ≤ max base ack ∧ (increment = false → base' = base) ∧
      (increment = true → (∀ y, x ≤ y → y < base' → ¬header.Nacks y) ∧
        (base' = ack ∨ header.Nacks base')) := by
  have hwindow : windowSize = 512 := rfl
  induction rounds generalizing rlc due base x increment with
  | zero => exact absurd hrounds (not_lt.mpr hxack)
  | succ rounds ih =>
    have hin : ∀ y, x ≤ y → y ≤ next → base ≤ y ∧ y < base + 1024 := by omega
    have hlt := lt_place (hin x le_rfl (hxack.trans hack)).1
      (hin x le_rfl (hxack.trans hack)).2 (hin ack hxack hack).1 (hin ack hxack hack).2
    have hlt' := lt_place (hin x le_rfl (hxack.trans hack)).1
      (hin x le_rfl (hxack.trans hack)).2 (hin next (hxack.trans hack) le_rfl).1
      (hin next (hxack.trans hack) le_rfl).2
    unfold LteRlcAm.statusLoop
    rw [hlt, hline.vtS, hlt', ← Bool.decide_and]
    rcases hxack.eq_or_lt with rfl | hxlt
    · -- the loop is over
      rw [if_neg (by simp)]
      refine ⟨rlc, base, rfl, hline, hstored.congr fun y => ?_, le_rfl, le_max_left _ _,
        fun _ => rfl, fun hinc => ?_⟩
      · exact (and_iff_left fun hxy hyx => absurd hyx (not_lt.mpr hxy)).symm
      · rw [hx hinc]
        exact ⟨fun y hy hy' => absurd hy' (not_lt.mpr hy), .inl rfl⟩
    rw [if_pos (decide_eq_true ⟨hxlt, hxlt.trans_le hack⟩)]
    obtain ⟨rlc₁, hround, hstored₁, hsame⟩ := exists_statusRound base hstored hturn
      (⟨hfirst.trans hbase, by omega⟩ : first ≤ x ∧ x < first + 1024) (hnack x le_rfl hxlt)
    have hline₁ := hsame.onLine hline
    have hturn₁ : InTurn first (fun y => due y ∧ (y = x → header.Nacks x)) :=
      fun y hy => hturn y hy.1
    have hnack₁ : ∀ y, x + 1 ≤ y → y < ack → header.Nacks y → due y ∧ (y = x → header.Nacks x) :=
      fun y hy hy' hpresent => ⟨hnack y (Nat.le_of_succ_le hy) hy' hpresent,
        fun heq => absurd hy (by omega)⟩
    -- the rounds that follow leave what is missing from the next number on
    have hrest : ∀ rlc', Stored rlc' sent (fun y => (due y ∧ (y = x → header.Nacks x)) ∧
        (x + 1 ≤ y → y < ack → header.Nacks y)) →
        Stored rlc' sent (fun y => due y ∧ (x ≤ y → y < ack → header.Nacks y)) := by
      refine fun rlc' h => h.congr fun y => ?_
      rw [and_assoc]
      refine and_congr_right fun _ => ⟨fun ⟨hself, hlater⟩ hxy hyack => ?_, fun himp => ⟨?_, ?_⟩⟩
      · rcases hxy.eq_or_lt with rfl | hxy
        · exact hself rfl
        · exact hlater hxy hyack
      · rintro rfl
        exact himp le_rfl hxlt
      · exact fun hxy => himp (Nat.le_of_succ_le hxy)
    rw [hround, Option.bind_some]
    split
    · next hmove =>
      rw [Bool.and_eq_true, not_eq_true'] at hmove
      obtain rfl := hx hmove.1
      have hpresent : ¬header.Nacks x := by
        unfold LteRlcAmHeader.Nacks
        exact eq_false_iff.mp hmove.2
      have hline₂ := hline₁.incrementVtA
      dsimp only
      rw [hline₂.vtA, setModulusBase_place, setModulusBase_place, succ_place]
      have hstored₂ : Stored rlc₁.incrementVtA sent (fun y => due y ∧ (y = x → header.Nacks x)) :=
        ⟨hstored₁.sent_of_due, hstored₁.holds, hstored₁.vacant, hstored₁.txed, hstored₁.retx⟩
      obtain ⟨rlc', base', hloop, hline', hstored', hle, hmax, -, hmoved⟩ :=
        ih true hline₂ hstored₂ hturn₁ (Nat.le_succ_of_le hfirst) le_rfl (fun _ => rfl) hxlt hnack₁
          (by omega)
      refine ⟨rlc', base', hloop, hline', hrest rlc' hstored', Nat.le_of_succ_le hle, ?_, ?_, ?_⟩
      · rw [max_eq_right hxlt] at hmax
        exact hmax.trans (le_max_right _ _)
      · exact fun hno => absurd (hmove.1.symm.trans hno) Bool.true_eq_false.mp
      · refine fun _ => ⟨fun y hy hy' => ?_, (hmoved rfl).2⟩
        rcases hy.eq_or_lt with rfl | hy
        · exact hpresent
        · exact (hmoved rfl).1 y hy hy'
    · next hstay =>
      rw [succ_place]
      obtain ⟨rlc', base', hloop, hline', hstored', hle, hmax, hbase', -⟩ :=
        ih false hline₁ hstored₁ hturn₁ hfirst (Nat.le_succ_of_le hbase)
          (fun h => absurd h false_ne_true) hxlt hnack₁ (by omega)
      have hsame' := hbase' rfl
      refine ⟨rlc', base', hloop, hline', hrest rlc' hstored', hle, hmax, fun _ => hsame', ?_⟩
      intro hinc
      have hpresent : header.Nacks x := by
        rw [hinc, Bool.true_and, not_eq_true', Bool.not_eq_false] at hstay
        exact hstay
      rw [hsame', ← hx hinc]
      exact ⟨fun y hy hy' => absurd hy' (not_lt.mpr hy), .inr hpresent⟩

end StatusLoop

section BufferLoops

variable {rlc : LteRlcAm} {sent : List Pdu} {due : Nat → Prop} {base x : Nat}

theorem exists_moveAll (rounds : Nat) {sn : SequenceNumber10} (hstored : Stored rlc sent due)
    (hline : OnLine rlc base sent.length) (hbase : base ≤ x) (hle : x ≤ sent.length)
    (hnext : sent.length ≤ base + windowSize) (hsn : sn = place base x)
    (hrounds : sent.length < x + rounds) :
    ∃ rlc', LteRlcAm.moveAll rounds rlc sn = some rlc' ∧ Stored rlc' sent due ∧
      SameWindow rlc rlc' := by
  have hwindow : windowSize = 512 := rfl
  induction rounds generalizing rlc x sn with
  | zero => exact absurd hrounds (not_lt.mpr hle)
  | succ rounds ih =>
    unfold LteRlcAm.moveAll
    rw [hsn, hline.vtS, lt_place hbase (by omega) (hbase.trans hle) (by omega)]
    rcases hle.eq_or_lt with heq | hlt
    · rw [if_neg (by simp [heq])]
      exact ⟨rlc, rfl, hstored, rfl, rfl, rfl⟩
    rw [if_pos (decide_eq_true hlt), succ_place, value_place]
    split
    · next pdu hslot =>
      have hmoved := stored_moveToRetxBuffer hstored hslot
      have hline' : OnLine (rlc.moveToRetxBuffer (x % 1024) pdu) base sent.length :=
        ⟨hline.vtA, hline.vtS, hline.vtMs⟩
      exact ih hmoved hline' (Nat.le_succ_of_le hbase) hlt rfl (by omega)
    · exact ih hstored hline (Nat.le_succ_of_le hbase) hlt rfl (by omega)

theorem exists_slot_of_size_pos {buffer : Nat → Option Pdu} {size : BitVec 32}
    (h : Sized buffer size) (hpos : 0 < size) : ∃ i pdu, buffer i = some pdu := by
  by_contra hnone
  have hempty : ∀ i, buffer i = none := fun i =>
    Option.eq_none_iff_forall_ne_some.mpr fun pdu hpdu => hnone ⟨i, pdu, hpdu⟩
  have hzero : storedSize buffer = 0 := by
    refine Finset.sum_eq_zero fun i _ => ?_
    rw [hempty, slotSize_none]
  rw [h, hzero] at hpos
  exact absurd hpos (by decide)

theorem exists_retransmit (rounds bytes : Nat) (hline : OnLine rlc base sent.length)
    (hstored : Stored rlc sent due) (hbase : base ≤ x) (hnext : sent.length ≤ base + windowSize)
    (hwaits : ∃ z pdu, due z ∧ x ≤ z ∧ rlc.retxBuffer (z % 1024) = some pdu)
    (hrounds : sent.length < x + rounds) :
    ∃ i pdu, rlc.retxBuffer i = some pdu ∧ rlc.retransmit bytes rounds (place base x) =
        if pdu.length ≤ bytes ∨ rlc.txOpportunityForRetxAlwaysBigEnough then
          (rlc.sendAgain i pdu).map fun (rlc, packet) => (rlc, some packet)
        else some (rlc, none) := by
  have hwindow : windowSize = 512 := rfl
  induction rounds generalizing x with
  | zero =>
    obtain ⟨z, _, hz, hxz, -⟩ := hwaits
    exact absurd (hxz.trans_lt (hstored.sent_of_due z hz)) (not_lt.mpr hrounds.le)
  | succ rounds ih =>
    obtain ⟨z, waiting, hz, hxz, hslot⟩ := hwaits
    have hlt := hxz.trans_lt (hstored.sent_of_due z hz)
    unfold LteRlcAm.retransmit
    rw [hline.vtS, lt_place hbase (by omega) (hbase.trans hlt.le) (by omega),
      if_pos (decide_eq_true hlt), succ_place, value_place]
    split
    · next pdu hpdu => exact ⟨x % 1024, pdu, hpdu, rfl⟩
    · next hnone =>
      refine ih (Nat.le_succ_of_le hbase) ⟨z, waiting, hz, ?_, hslot⟩ (by omega)
      refine lt_of_le_of_ne hxz ?_
      rintro rfl
      rw [hnone] at hslot
      cases hslot

end BufferLoops

/-! ## 5. Runs -/

/-- A sender with what it was told. -/
structure Bookkeeping where
  rlc : LteRlcAm
  /-- The new PDUs, in the order of their numbers. -/
  sent : List Pdu
  /-- `VT(A)`, with its turns. -/
  base : Nat
  /-- What was acknowledged by a STATUS PDU so far. -/
  acked : Nat → Bool

inductive Event
  | transmitPdcpPdu (p : List Bytes.Byte)
  /-- What the receiving side does in between. -/
  | receive (receiver : Receiver)
  | txOpportunity (bytes : Nat)
  | statusPdu (header : LteRlcAmHeader)
  | pollRetransmitTimer

namespace Bookkeeping

def start (maxTxBufferSize : BitVec 32) (txOpportunityForRetxAlwaysBigEnough : Bool) :
    Bookkeeping where
  rlc := .initial maxTxBufferSize txOpportunityForRetxAlwaysBigEnough
  sent := []
  base := 0
  acked := fun _ => false

/-- The first place of a number from `VT(A)` on. -/
def line (b : Bookkeeping) (sn : SequenceNumber10) : Nat :=
  b.base + (sn.value + 1024 - b.base % 1024) % 1024

/-- A PDU is new when the next number is another one afterwards. -/
def step (b : Bookkeeping) : Event → Option Bookkeeping
  | .transmitPdcpPdu p => some { b with rlc := b.rlc.doTransmitPdcpPdu p }
  | .receive receiver => some { b with rlc := { b.rlc with receiver } }
  | .txOpportunity bytes =>
    (b.rlc.doNotifyTxOpportunity bytes).map fun sent => { b with
      rlc := sent.1
      sent := if sent.1.vtS.value = b.rlc.vtS.value then b.sent else b.sent ++ sent.2.toList }
  | .statusPdu header =>
    (b.rlc.receiveStatusPdu header).map fun rlc => { b with
      rlc
      base := b.line rlc.vtA
      acked := fun x => b.acked x || (decide (b.base ≤ x) && decide (x < b.line header.ackSn) &&
        !header.isNackPresent (.ofValue x)) }
  | .pollRetransmitTimer => b.rlc.expirePollRetransmitTimer.map fun rlc => { b with rlc }

/-- `ACK_SN` is within the window, and what is missing was never acknowledged. -/
def Allowed (b : Bookkeeping) : Event → Prop
  | .statusPdu header => b.line header.ackSn ≤ b.sent.length ∧
    ∀ x < b.line header.ackSn, b.base ≤ x → header.Nacks x → b.acked x = false
  | _ => True

/-- Something is missing, or `ACK_SN` is new or the end of what was sent. -/
def Meets (b : Bookkeeping) : Event → Prop
  | .statusPdu header => (∃ x < b.line header.ackSn, b.base ≤ x ∧ header.Nacks x) ∨
    b.line header.ackSn = b.sent.length ∨ b.acked (b.line header.ackSn) = false
  | _ => True

inductive Run (ok : Bookkeeping → Event → Prop) : Bookkeeping → Prop
  | start (maxTxBufferSize : BitVec 32) (txOpportunityForRetxAlwaysBigEnough : Bool) :
      Run ok (start maxTxBufferSize txOpportunityForRetxAlwaysBigEnough)
  | step {b b' : Bookkeeping} {e : Event} (run : Run ok b) (hok : ok b e)
      (hstep : b.step e = some b') : Run ok b'

/-- What was sent and is not acknowledged. -/
def Due (b : Bookkeeping) (x : Nat) : Prop :=
  b.base ≤ x ∧ x < b.sent.length ∧ b.acked x = false

/-- `VT(A)` is the lowest number that is not acknowledged, or `VT(S)`. -/
def Lowest (b : Bookkeeping) : Prop := b.base = b.sent.length ∨ b.acked b.base = false

/-- The bookkeeping is right. -/
structure Right (b : Bookkeeping) : Prop where
  vtA : b.rlc.vtA.value = b.base % 1024
  vtS : b.rlc.vtS.value = b.sent.length % 1024
  vtMs : b.rlc.vtMs.value = (b.base + windowSize) % 1024
  le : b.base ≤ b.sent.length
  window : b.sent.length ≤ b.base + windowSize
  stored : Stored b.rlc b.sent b.Due
  acked_of_lt : ∀ x < b.base, b.acked x = true
  lowest : b.Lowest

/-- What every event keeps. -/
structure Kept (b : Bookkeeping) : Prop where
  onLine : OnLine b.rlc b.base b.sent.length
  le : b.base ≤ b.sent.length
  window : b.sent.length ≤ b.base + windowSize
  stored : Stored b.rlc b.sent b.Due
  acked_of_lt : ∀ x < b.base, b.acked x = true
  lt_of_acked : ∀ x, b.acked x = true → x < b.sent.length

variable {b : Bookkeeping}

theorem Kept.right (h : Kept b) (hlowest : b.Lowest) : Right b where
  vtA := by rw [h.onLine.vtA, value_place]
  vtS := by rw [h.onLine.vtS, value_place]
  vtMs := by rw [h.onLine.vtMs, value_place]
  le := h.le
  window := h.window
  stored := h.stored
  acked_of_lt := h.acked_of_lt
  lowest := hlowest

theorem Kept.inTurn (h : Kept b) : InTurn b.base b.Due := by
  intro x hx
  have hwindow : windowSize = 512 := rfl
  have hlt := hx.2.1.trans_le h.window
  exact ⟨hx.1, by omega⟩

theorem sized_none : Sized (fun _ => none) 0 := by
  have hzero : storedSize (fun _ => none) = 0 := Finset.sum_eq_zero fun _ _ => rfl
  rw [Sized, hzero]
  rfl

theorem kept_start (maxTxBufferSize : BitVec 32) (big : Bool) :
    Kept (start maxTxBufferSize big) where
  onLine := ⟨rfl, rfl, rfl⟩
  le := le_rfl
  window := Nat.zero_le _
  stored := ⟨fun _ hx => hx.2.1, fun x _ hx => absurd hx.2.1 (Nat.not_lt_zero x),
    fun _ _ => ⟨rfl, rfl⟩, sized_none, sized_none⟩
  acked_of_lt := fun x hx => absurd hx (Nat.not_lt_zero x)
  lt_of_acked := fun _ hx => absurd hx false_ne_true

theorem Kept.of_stored (h : Kept b) {rlc : LteRlcAm} (hstored : Stored rlc b.sent b.Due)
    (hsame : SameWindow b.rlc rlc) : Kept { b with rlc } :=
  ⟨hsame.onLine h.onLine, h.le, h.window, hstored, h.acked_of_lt, h.lt_of_acked⟩

theorem Kept.append {b : Bookkeeping} (h : Kept b) {rlc : LteRlcAm} {pdu : Pdu}
    (hroom : b.rlc.vtS.lt b.rlc.vtMs = true)
    (htxed : rlc.txedBuffer = setSlot b.rlc.txedBuffer b.rlc.vtS.value (some pdu))
    (htxedSize : rlc.txedBufferSize = b.rlc.txedBufferSize + sizeOf pdu)
    (hretx : rlc.retxBuffer = b.rlc.retxBuffer)
    (hretxSize : rlc.retxBufferSize = b.rlc.retxBufferSize)
    (hvtA : rlc.vtA = b.rlc.vtA) (hvtS : rlc.vtS = b.rlc.vtS.succ)
    (hvtMs : rlc.vtMs = b.rlc.vtMs) : Kept { b with rlc, sent := b.sent ++ [pdu] } := by
  have hlen : (b.sent ++ [pdu]).length = b.sent.length + 1 := List.length_append
  have hwindow : windowSize = 512 := rfl
  have hle := h.le
  have hwin := h.window
  have hlt : b.sent.length < b.base + windowSize := by
    rw [h.onLine.vtS, h.onLine.vtMs, lt_place hle (by omega)
      (Nat.le_add_right _ _) (by omega)] at hroom
    exact of_decide_eq_true hroom
  rw [h.onLine.vtS, value_place] at htxed
  have hfree : ∀ x, b.Due x → x % 1024 ≠ b.sent.length % 1024 := fun x hx =>
    mod_ne_of_turn (h.inTurn x hx) ⟨hle, by omega⟩ hx.2.1.ne
  have hslot : b.rlc.txedBuffer (b.sent.length % 1024) = none := (h.stored.vacant _ hfree).1
  have hnew : b.acked b.sent.length = false :=
    eq_false_iff.mpr fun hacked => absurd (h.lt_of_acked _ hacked) (Nat.lt_irrefl _)
  constructor
  · refine ⟨hvtA.trans h.onLine.vtA, ?_, hvtMs.trans h.onLine.vtMs⟩
    rw [hvtS, h.onLine.vtS, succ_place, hlen]
  · exact (Nat.le_succ_of_le hle).trans_eq hlen.symm
  · exact hlen.trans_le hlt
  · refine (h.stored.append hfree (fun j hj => ?_) ?_ hretx ?_ ?_).congr fun x => ?_
    · rw [htxed, setSlot_of_ne hj]
    · rw [htxed, setSlot_self]
    · rw [htxed, htxedSize]
      exact h.stored.txed.put (Nat.mod_lt _ (by decide)) hslot
    · rw [hretx, hretxSize]
      exact h.stored.retx
    · unfold Due
      rw [hlen, Nat.lt_succ_iff_lt_or_eq]
      constructor
      · rintro (hdue | rfl)
        · exact ⟨hdue.1, .inl hdue.2.1, hdue.2.2⟩
        · exact ⟨hle, .inr rfl, hnew⟩
      · rintro ⟨hbase, hx | hx, hacked⟩
        · exact .inl ⟨hbase, hx, hacked⟩
        · exact .inr hx
  · exact h.acked_of_lt
  · exact fun x hx => (h.lt_of_acked x hx).trans_le (hlen ▸ Nat.le_succ _)

/-! ### One event -/

section Line

variable {b : Bookkeeping}

theorem base_le_line (b : Bookkeeping) (sn : SequenceNumber10) : b.base ≤ b.line sn :=
  Nat.le_add_right _ _

theorem line_place {x base : Nat} (hle : b.base ≤ x) (hlt : x < b.base + 1024) :
    b.line (place base x) = x := by
  unfold line
  rw [value_place]
  omega

theorem setModulusBase_eq_place (b : Bookkeeping) (sn : SequenceNumber10) :
    sn.setModulusBase (place b.base b.base) = place b.base (b.line sn) := by
  have hval : sn.value = (b.line sn) % 1024 := by
    have hlt := sn.value_lt
    unfold line
    omega
  unfold setModulusBase place
  simp only [hval]

end Line

theorem Kept.transmitPdcpPdu (h : Kept b) (p : List Bytes.Byte) :
    Kept { b with rlc := b.rlc.doTransmitPdcpPdu p } := by
  have hstored := h.stored
  refine h.of_stored ?_ ?_ <;> unfold LteRlcAm.doTransmitPdcpPdu <;> split
  · exact ⟨hstored.sent_of_due, hstored.holds, hstored.vacant, hstored.txed, hstored.retx⟩
  · exact hstored
  · exact ⟨rfl, rfl, rfl⟩
  · exact ⟨rfl, rfl, rfl⟩

theorem Kept.txOpportunity {b' : Bookkeeping} (h : Kept b) {bytes : Nat}
    (hstep : b.step (.txOpportunity bytes) = some b') :
    Kept b' ∧ b'.base = b.base ∧ b'.acked = b.acked ∧ (b.Lowest → b'.Lowest) := by
  have hwindow : windowSize = 512 := rfl
  obtain ⟨⟨rlc, packet⟩, hsend, rfl⟩ := Option.map_eq_some_iff.mp hstep
  -- where the next number stays as it is
  have hkept (hstored : Stored rlc b.sent b.Due) (hsame : SameWindow b.rlc rlc) :
      Kept { b with rlc, sent := if rlc.vtS.value = b.rlc.vtS.value then b.sent
        else b.sent ++ packet.toList } ∧ b.base = b.base ∧ b.acked = b.acked ∧
      (b.Lowest → Lowest { b with rlc, sent := if rlc.vtS.value = b.rlc.vtS.value then b.sent
        else b.sent ++ packet.toList }) := by
    rw [if_pos (by rw [hsame.2.1])]
    exact ⟨h.of_stored hstored hsame, rfl, rfl, id⟩
  have hold := h.stored
  obtain ⟨-, ⟨-, -, receiver, rfl⟩ | ⟨-, ⟨hpos, -, hretx⟩ | ⟨-, -, hnew⟩ | ⟨rfl, rfl⟩⟩⟩ :=
    LteRlcAm.doNotifyTxOpportunity_cases hsend
  · exact hkept ⟨hold.sent_of_due, hold.holds, hold.vacant, hold.txed, hold.retx⟩ ⟨rfl, rfl, rfl⟩
  · obtain ⟨i, waiting, hslot⟩ := exists_slot_of_size_pos hold.retx hpos
    obtain ⟨z, hz, rfl⟩ := hold.exists_due (.inr hslot)
    obtain ⟨i, pdu, hpdu, hresult⟩ := exists_retransmit 1025 bytes h.onLine hold le_rfl h.window
      ⟨z, waiting, hz, hz.1, hslot⟩ (by have := h.window; omega)
    rw [h.onLine.vtA, hresult] at hretx
    split at hretx
    · obtain ⟨sent, hsent, heq⟩ := Option.map_eq_some_iff.mp hretx
      cases heq
      obtain ⟨hstored, hsame⟩ := stored_sendAgain hold hpdu hsent
      exact hkept hstored hsame
    · cases hretx
      exact hkept hold ⟨rfl, rfl, rfl⟩
  · rcases LteRlcAm.cases_of_sendNew hnew with
      ⟨rfl, rfl⟩ | ⟨pdu, rfl, hroom, htxed, htxedSize, hretx, hretxSize, hvtA, hvtS, hvtMs⟩
    · exact hkept hold ⟨rfl, rfl, rfl⟩
    · have hother : rlc.vtS.value ≠ b.rlc.vtS.value := by
        rw [hvtS, h.onLine.vtS, succ_place, value_place, value_place]
        omega
      dsimp only
      rw [if_neg hother]
      have happend := h.append hroom htxed htxedSize hretx hretxSize hvtA hvtS hvtMs
      refine ⟨happend, rfl, rfl, fun hlowest => .inr ?_⟩
      rcases hlowest with heq | hacked
      · refine eq_false_iff.mpr fun hacked => absurd (h.lt_of_acked _ hacked) ?_
        exact not_lt.mpr heq.ge
      · exact hacked
  · exact hkept hold ⟨rfl, rfl, rfl⟩

theorem Kept.pollRetransmitTimer {b' : Bookkeeping} (h : Kept b)
    (hstep : b.step .pollRetransmitTimer = some b') :
    Kept b' ∧ b'.base = b.base ∧ b'.acked = b.acked ∧ b'.sent = b.sent := by
  obtain ⟨rlc, hexpire, rfl⟩ := Option.map_eq_some_iff.mp hstep
  refine ⟨?_, rfl, rfl, rfl⟩
  have hold := h.stored
  have hwindow : windowSize = 512 := rfl
  have hwin := h.window
  have hstored (running expired : Bool) : Stored { b.rlc with
      pollRetransmitTimerRunning := running
      pollRetransmitTimerJustExpired := expired } b.sent b.Due :=
    ⟨hold.sent_of_due, hold.holds, hold.vacant, hold.txed, hold.retx⟩
  unfold LteRlcAm.expirePollRetransmitTimer at hexpire
  dsimp only at hexpire
  split at hexpire
  · cases hexpire
  split at hexpire
  · obtain ⟨rlc', hmove, hstored', hsame⟩ := exists_moveAll 1025 (hstored false true)
      ⟨h.onLine.vtA, h.onLine.vtS, h.onLine.vtMs⟩ le_rfl h.le h.window h.onLine.vtA (by omega)
    obtain rfl := Option.some.inj (hmove.symm.trans hexpire)
    exact h.of_stored hstored' hsame
  · cases hexpire
    exact h.of_stored (hstored false true) ⟨rfl, rfl, rfl⟩

theorem receiveStatusPdu_eq {rlc : LteRlcAm} {base next : Nat} (h : OnLine rlc base next)
    (header : LteRlcAmHeader) :
    rlc.receiveStatusPdu header = LteRlcAm.statusLoop header 1025 rlc (place base base)
      (header.ackSn.setModulusBase (place base base)) true := by
  obtain ⟨hvtA, hvtS, hvtMs⟩ := h
  cases rlc
  dsimp only at hvtA hvtS hvtMs
  subst hvtA hvtS hvtMs
  rfl

/-- `VT(A)` is at the first number that is missing, or at `ACK_SN`. -/
theorem Kept.exists_statusPdu (h : Kept b) {header : LteRlcAmHeader}
    (hallowed : b.Allowed (.statusPdu header)) :
    ∃ b' base', b.step (.statusPdu header) = some b' ∧ b'.base = base' ∧ b'.sent = b.sent ∧
      (∀ x, b'.acked x = true ↔ b.acked x = true ∨
        (b.base ≤ x ∧ x < b.line header.ackSn ∧ ¬header.Nacks x)) ∧
      OnLine b'.rlc base' b.sent.length ∧
      Stored b'.rlc b.sent
        (fun x => b.Due x ∧ (b.base ≤ x → x < b.line header.ackSn → header.Nacks x)) ∧
      b.base ≤ base' ∧ base' ≤ b.line header.ackSn ∧
      (∀ x, b.base ≤ x → x < base' → ¬header.Nacks x) ∧
      (base' = b.line header.ackSn ∨ header.Nacks base') := by
  have hwindow : windowSize = 512 := rfl
  obtain ⟨hack, hnever⟩ := hallowed
  have hwin := h.window
  have hle := base_le_line b header.ackSn
  have hnacks : ∀ y, b.base ≤ y → y < b.line header.ackSn → header.Nacks y → b.Due y :=
    fun y hy hy' hpresent => ⟨hy, hy'.trans_le hack, hnever y hy' hy hpresent⟩
  have hloop := exists_statusLoop 1025 true h.onLine h.stored h.inTurn le_rfl le_rfl
    (fun _ => rfl) hle hack h.window hnacks (by omega)
  obtain ⟨rlc, base', hloop, hline, hstored, hbase, hmax, -, hmoved⟩ := hloop
  rw [max_eq_right hle] at hmax
  rw [← setModulusBase_eq_place, ← receiveStatusPdu_eq h.onLine] at hloop
  refine ⟨_, base', congrArg (Option.map _) hloop, ?_, rfl, fun x => ?_, hline, hstored, hbase,
    hmax, (hmoved rfl).1, (hmoved rfl).2⟩
  · dsimp only
    rw [hline.vtA]
    exact line_place hbase (by omega)
  · simp only [Bool.or_eq_true, Bool.and_eq_true, decide_eq_true_eq, not_eq_true', and_assoc,
      LteRlcAmHeader.Nacks, Bool.not_eq_true]

theorem Kept.statusPdu {b' : Bookkeeping} (h : Kept b) {header : LteRlcAmHeader}
    (hallowed : b.Allowed (.statusPdu header)) (hstep : b.step (.statusPdu header) = some b') :
    Kept b' ∧ (b'.Lowest ↔ b.Meets (.statusPdu header)) := by
  obtain ⟨hack, hnever⟩ := id hallowed
  have hle := base_le_line b header.ackSn
  obtain ⟨b₁, base', hstep', rfl, hsent, hacked, hline, hstored, hbase, hmax, hpassed, hstop⟩ :=
    h.exists_statusPdu hallowed
  obtain rfl : b' = b₁ := Option.some.inj (hstep.symm.trans hstep')
  rw [← hsent] at hline hstored
  constructor
  · constructor
    · exact hline
    · rw [hsent]
      exact hmax.trans hack
    · rw [hsent]
      exact h.window.trans (Nat.add_le_add_right hbase _)
    · refine hstored.congr fun x => ⟨fun ⟨⟨hx, hlt, hnot⟩, hmissing⟩ => ⟨?_, ?_, ?_⟩,
        fun ⟨hx, hlt, hnot⟩ => ⟨⟨hbase.trans hx, ?_, ?_⟩, fun hge hack' => ?_⟩⟩
      · by_contra hbefore
        have hlt' := not_le.mp hbefore
        exact hpassed x hx hlt' (hmissing hx (hlt'.trans_le hmax))
      · rw [hsent]
        exact hlt
      · rw [eq_false_iff, Ne, hacked]
        rintro (hold | ⟨-, hlt', hpresent⟩)
        · exact false_ne_true (hnot.symm.trans hold)
        · exact hpresent (hmissing hx hlt')
      · rw [← hsent]
        exact hlt
      · exact eq_false_iff.mpr fun hold =>
          false_ne_true (hnot.symm.trans ((hacked x).mpr (.inl hold)))
      · by_contra hpresent
        exact false_ne_true (hnot.symm.trans ((hacked x).mpr (.inr ⟨hge, hack', hpresent⟩)))
    · intro x hx
      rw [hacked]
      rcases lt_or_ge x b.base with hlt | hge
      · exact .inl (h.acked_of_lt x hlt)
      · exact .inr ⟨hge, hx.trans_le hmax, hpassed x hge hx⟩
    · intro x hx
      rw [hsent]
      rcases (hacked x).mp hx with hold | ⟨-, hlt, -⟩
      · exact h.lt_of_acked x hold
      · exact hlt.trans_le hack
  · unfold Lowest
    rw [hsent]
    rcases hmax.eq_or_lt with heq | hlt
    · -- nothing is missing, and what follows is not acknowledged now
      have hnone : ¬∃ x < b.line header.ackSn, b.base ≤ x ∧ header.Nacks x :=
        fun ⟨x, hx, hge, hpresent⟩ => hpassed x hge (heq ▸ hx) hpresent
      have hsame : b'.acked b'.base = b.acked (b.line header.ackSn) := by
        rw [Bool.eq_iff_iff, hacked, heq]
        exact or_iff_left fun hnew => absurd hnew.2.1 (lt_irrefl _)
      rw [hsame, heq]
      exact (or_iff_right hnone).symm
    · have hpresent := hstop.resolve_left hlt.ne
      refine iff_of_true (.inr ?_) (.inl ⟨_, hlt, hbase, hpresent⟩)
      rw [eq_false_iff, Ne, hacked]
      rintro (hold | ⟨-, -, hnot⟩)
      · exact false_ne_true ((hnever _ hlt hbase hpresent).symm.trans hold)
      · exact hnot hpresent

theorem Kept.step {b b' : Bookkeeping} (h : Kept b) (hlowest : b.Lowest) {e : Event}
    (hallowed : b.Allowed e) (hstep : b.step e = some b') :
    Kept b' ∧ (b'.Lowest ↔ b.Meets e) := by
  have hold := h.stored
  cases e with
  | transmitPdcpPdu p =>
    cases hstep
    exact ⟨h.transmitPdcpPdu p, iff_of_true hlowest trivial⟩
  | receive receiver =>
    cases hstep
    exact ⟨h.of_stored ⟨hold.sent_of_due, hold.holds, hold.vacant, hold.txed, hold.retx⟩
      ⟨rfl, rfl, rfl⟩, iff_of_true hlowest trivial⟩
  | txOpportunity bytes =>
    obtain ⟨hkept, -, -, hlowest'⟩ := h.txOpportunity hstep
    exact ⟨hkept, iff_of_true (hlowest' hlowest) trivial⟩
  | statusPdu header => exact h.statusPdu hallowed hstep
  | pollRetransmitTimer =>
    obtain ⟨hkept, hbase, hacked, hsent⟩ := h.pollRetransmitTimer hstep
    refine ⟨hkept, iff_of_true ?_ trivial⟩
    unfold Lowest
    rw [hbase, hacked, hsent]
    exact hlowest

theorem kept_of_run (h : Run (fun b e => b.Allowed e ∧ b.Meets e) b) : Kept b ∧ b.Lowest := by
  induction h with
  | start maxTxBufferSize big => exact ⟨kept_start maxTxBufferSize big, .inl rfl⟩
  | step run hok hstep ih =>
    obtain ⟨hkept, hlowest⟩ := ih.1.step ih.2 hok.1 hstep
    exact ⟨hkept, hlowest.mpr hok.2⟩

end Bookkeeping

/-- Where every STATUS PDU meets the condition, the bookkeeping is right in every state, and the
next event leaves it right exactly where it meets the condition, too. -/
theorem bookkeeping_of_run {b : Bookkeeping}
    (h : Bookkeeping.Run (fun b e => b.Allowed e ∧ b.Meets e) b) :
    b.Right ∧ ∀ e b', b.Allowed e → b.step e = some b' → (b'.Right ↔ b.Meets e) := by
  obtain ⟨hkept, hlowest⟩ := Bookkeeping.kept_of_run h
  refine ⟨hkept.right hlowest, fun e b' hallowed hstep => ?_⟩
  obtain ⟨hkept', hiff⟩ := hkept.step hlowest hallowed hstep
  exact ⟨fun hright => hiff.mp hright.lowest, fun hmeets => hkept'.right (hiff.mpr hmeets)⟩

namespace Bookkeeping

instance (b : Bookkeeping) : (e : Event) → Decidable (b.Allowed e)
  | .statusPdu header => inferInstanceAs (Decidable (b.line header.ackSn ≤ b.sent.length ∧
      ∀ x < b.line header.ackSn, b.base ≤ x → header.isNackPresent (.ofValue x) = true →
        b.acked x = false))
  | .transmitPdcpPdu _ | .receive _ | .txOpportunity _ | .pollRetransmitTimer => isTrue trivial

instance (b : Bookkeeping) : (e : Event) → Decidable (b.Meets e)
  | .statusPdu header => inferInstanceAs (Decidable (
      (∃ x < b.line header.ackSn, b.base ≤ x ∧ header.isNackPresent (.ofValue x) = true) ∨
        b.line header.ackSn = b.sent.length ∨ b.acked (b.line header.ackSn) = false))
  | .transmitPdcpPdu _ | .receive _ | .txOpportunity _ | .pollRetransmitTimer => isTrue trivial

section RunThrough

variable (ok : Bookkeeping → Event → Prop) [∀ b e, Decidable (ok b e)]

/-- The state after the events, where each of them is met by the condition. -/
def runThrough (b : Bookkeeping) (events : List Event) : Option Bookkeeping :=
  events.foldlM (fun b e => if ok b e then b.step e else none) b

theorem Run.runThrough {b b' : Bookkeeping} (h : Run ok b) {events : List Event}
    (hrun : b.runThrough ok events = some b') : Run ok b' := by
  induction events generalizing b with
  | nil =>
    cases hrun
    exact h
  | cons e events ih =>
    obtain ⟨b₁, hstep, hrest⟩ := Option.bind_eq_some_iff.mp hrun
    dsimp only at hstep
    split at hstep
    · next hok => exact ih (.step h hok hstep) hrest
    · cases hstep

end RunThrough

/-- A STATUS PDU that acknowledges all before `ack`, but those numbers. -/
def status (ack : Nat) (missing : List Nat) : Event :=
  .statusPdu { LteRlcAmHeader.initial with ackSn := .ofValue ack, nackSnList := missing }

/-- Two new PDUs are sent. -/
def twoSent : List Event :=
  [.transmitPdcpPdu [1], .txOpportunity 7, .transmitPdcpPdu [2], .txOpportunity 7]

end Bookkeeping

open Bookkeeping in
/-- Number 0 is reported missing, and acknowledged together with number 1 in the end. -/
theorem bookkeeping_of_run_twoSent :
    ∃ b : Bookkeeping, b.sent.length = 2 ∧ b.base = 2 ∧ b.Right := by
  have hcomputed : ((start 0 false).runThrough (fun b e => b.Allowed e ∧ b.Meets e)
      (twoSent ++ [status 2 [0], status 2 []])).map (fun b => (b.sent.length, b.base)) =
        some (2, 2) := by decide +kernel
  obtain ⟨b, hrun, hvalues⟩ := Option.map_eq_some_iff.mp hcomputed
  obtain ⟨hsent, hbase⟩ := Prod.mk.inj hvalues
  exact ⟨b, hsent, hbase, (bookkeeping_of_run ((Run.start 0 false).runThrough _ hrun)).1⟩

open Bookkeeping in
/-- Number 1 is acknowledged before number 0 is. `VT(A)` is moved to it, and stays there. -/
theorem vtA_acknowledged :
    ¬∀ b : Bookkeeping, Bookkeeping.Run (fun b e => b.Allowed e) b → b.Right := by
  intro hall
  have hcomputed : ((start 0 false).runThrough (fun b e => b.Allowed e)
      (twoSent ++ [status 2 [0], status 1 []])).map
        (fun b => (b.sent.length, b.base, b.acked 1)) = some (2, 1, true) := by decide +kernel
  obtain ⟨b, hrun, hvalues⟩ := Option.map_eq_some_iff.mp hcomputed
  obtain ⟨hsent, hrest⟩ := Prod.mk.inj hvalues
  obtain ⟨hbase, hacked⟩ := Prod.mk.inj hrest
  rcases (hall b ((Run.start 0 false).runThrough _ hrun)).lowest with heq | hnot
  · rw [hbase, hsent] at heq
    exact absurd heq (by decide)
  · rw [hbase, hacked] at hnot
    cases hnot

end MoeJit.Lte
