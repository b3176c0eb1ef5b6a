import MoeJit.Lte.LteRlcAm
import MoeJit.Lte.LteRlcUm

/-!
# PDUs and the transmit opportunity they are for

The room that the data field takes for its extension bits and lengths is what the header grows by
(`length_data_buildDataField`), so that a new PDU is never longer than its transmit opportunity, and
a retransmission keeps its length. A STATUS PDU can be one byte longer: `oneMoreNackWouldFitIn` asks
for a single byte of room before a NACK that takes two, and for two before one that takes one
(`length_of_pushNacks`).
-/

namespace MoeJit.Lte

open List
open Option (bind_eq_bind bind_eq_some_iff map_eq_some_iff)
open SequenceNumber10 (le_place lt_place succ_place)

/-! ## 1. The header of a data PDU -/

/-- What a number of extension bits adds to the fixed part. -/
def bitsLength (bits : Nat) : Nat := 3 * ((bits - 1) / 2) + 2 * ((bits - 1) % 2)

theorem bitsLength_succ {bits : Nat} (hpos : 0 < bits) :
    bitsLength (bits + 1) = bitsLength bits + if bits % 2 = 1 then 2 else 1 := by
  unfold bitsLength
  split <;> omega

/-- The data and the bits are within what was left when the bit of that number was next. -/
def DataField.Fits (field : DataField) (room nextSegmentId : Nat) : Prop :=
  field.data.length + bitsLength (nextSegmentId + (field.extensionBits.length - 1)) ≤
    room + bitsLength nextSegmentId

theorem length_fst_segment (first : Sdu) (size : Nat) :
    (first.segment size).1.bytes.length = min size first.bytes.length := by
  rw [← length_take]
  unfold Sdu.segment
  dsimp only
  split
  · rfl
  · split <;> rfl

theorem fits_last {segment : Sdu} {bit room nextSegmentId : Nat} {buffer : List Sdu}
    {bufferSize : BitVec 32} (hle : segment.bytes.length ≤ room) :
    DataField.Fits ⟨[segment], [bit], [], buffer, bufferSize⟩ room nextSegmentId := by
  simpa [DataField.Fits, DataField.data] using hle

theorem buildDataField_fits {nextSegmentSize nextSegmentId : Nat} {firstSegment : Sdu}
    {buffer : List Sdu} {bufferSize : BitVec 32} (hpos : 0 < nextSegmentId) :
    (buildDataField nextSegmentSize nextSegmentId firstSegment buffer bufferSize).Fits
      nextSegmentSize nextSegmentId := by
  fun_induction buildDataField nextSegmentSize nextSegmentId firstSegment buffer bufferSize with
  | case1 => simp [DataField.Fits, DataField.data]
  | case2 _ size _ first _ _ _ newSegment _ hseg | case3 _ size _ first _ _ _ newSegment hseg =>
    have hlen := length_fst_segment first (min first.bytes.length size)
    rw [hseg] at hlen
    exact fits_last (hlen.trans_le ((Nat.min_le_left _ _).trans (Nat.min_le_right _ _)))
  | case4 size _ first _ _ hle | case5 size _ first _ _ hle =>
    exact fits_last (not_lt.mp (not_or.mp hle).1)
  | case6 size id first _ _ hle next rest hroom field ih =>
    have hinner : field.data.length + bitsLength (id + 1 + (field.extensionBits.length - 1)) ≤
        size - ((if id % 2 = 1 then 2 else 1) + first.bytes.length) + bitsLength (id + 1) :=
      ih id.succ_pos
    have hsize : first.bytes.length ≤ size := not_lt.mp (not_or.mp hle).1
    have hsucc := bitsLength_succ hpos
    have hreserved : (if id % 2 = 1 then 2 else 1) ≤ 2 := by split <;> decide
    have hdata : (first :: field.segments).flatMap Sdu.bytes = first.bytes ++ field.data := rfl
    unfold DataField.Fits DataField.data
    dsimp only
    rw [hdata, length_append, length_cons, Nat.add_sub_cancel]
    -- without a bit in the inner field there is no data in it either
    rcases eq_zero_or_pos field.extensionBits.length with hnone | hsome
    · rw [hnone] at hinner ⊢
      rw [Nat.zero_sub, add_zero] at hinner
      rw [add_zero]
      omega
    · have hid : id + 1 + (field.extensionBits.length - 1) = id + field.extensionBits.length := by
        omega
      rw [hid] at hinner
      omega

/-! ## 2. The header grows as its bits are pushed -/

/-- A header whose bits are counted in `bits`, and that is never longer than they make it. -/
theorem foldl_push {Header : Type} (push : Header → Nat → Header) {length bits : Header → Nat}
    {fixed : Nat} (hbits : ∀ h bit, bits (push h bit) = bits h + 1)
    (hpush : ∀ h bit, length h ≤ fixed + bitsLength (bits h) →
      length (push h bit) ≤ fixed + bitsLength (bits h + 1))
    (added : List Nat) {h : Header} (hle : length h ≤ fixed + bitsLength (bits h)) :
    length (added.foldl push h) ≤ fixed + bitsLength (bits h + added.length) := by
  induction added generalizing h with
  | nil => exact hle
  | cons bit added ih =>
    have hnext := ih (h := push h bit) (by rw [hbits]; exact hpush h bit hle)
    rw [hbits, Nat.add_right_comm] at hnext
    exact hnext

/-- A push that grows a header by two bytes and one byte in turn, after the first bit. -/
theorem length_push_le {length fixed bits : Nat} (hle : length ≤ fixed + bitsLength bits)
    (hsome : 0 < bits) :
    (if (bits + 1) % 2 = 1 then (length + 1) % 65536 else (length + 2) % 65536) ≤
      fixed + bitsLength (bits + 1) := by
  rw [bitsLength_succ hsome]
  have hmod₁ := Nat.mod_le (length + 1) 65536
  have hmod₂ := Nat.mod_le (length + 2) 65536
  split <;> split <;> omega

variable {pdu : Pdu} {h : LteRlcAmHeader} {bytes rounds : Nat} {rlc rlc' : LteRlcAm}

theorem length_addHeader {written : Option (List Bytes.Byte)} {size : Nat} {data : List Bytes.Byte}
    (hadd : addHeader written size data = some pdu) : pdu.length = size + data.length := by
  obtain ⟨bytes, -, hbytes⟩ := bind_eq_some_iff.mp hadd
  split at hbytes
  · next hlen =>
    rw [← Option.some.inj hbytes, length_append, hlen]
  · cases hbytes

namespace LteRlcAmHeader

theorem headerLength_pushExtensionBit (h : LteRlcAmHeader) (bit : Nat)
    (hle : h.headerLength ≤ 4 + bitsLength h.extensionBits.length) :
    (h.pushExtensionBit bit).headerLength ≤ 4 + bitsLength (h.extensionBits.length + 1) := by
  unfold pushExtensionBit
  dsimp only
  rw [length_append, length_singleton]
  rcases eq_zero_or_pos h.extensionBits.length with hnone | hsome
  · rw [hnone] at hle ⊢
    exact hle
  · rw [if_pos (Nat.succ_lt_succ hsome)]
    exact length_push_le hle hsome

theorem headerLength_foldl_pushLengthIndicator (lis : List Nat) (h : LteRlcAmHeader) :
    (lis.foldl pushLengthIndicator h).headerLength = h.headerLength := by
  induction lis generalizing h with
  | nil => rfl
  | cons li lis ih => exact ih _

theorem length_le_of_readLis {packet : List Bytes.Byte} :
    ∀ read ∈ readLis packet, read.2.2 ≤ packet.length := by
  fun_induction readLis packet with
  | case1 | case5 => exact fun _ h => (nomatch h)
  | case2 b1 b2 oddE oddLi _ b3 rest evenE evenLi _ ih =>
    intro read hread
    obtain ⟨inner, hinner, rfl⟩ := map_eq_some_iff.mp hread
    exact Nat.add_le_add_right (ih inner hinner) 3
  | case3 b1 b2 oddE oddLi _ b3 rest evenE evenLi _ =>
    intro read hread
    cases hread
    exact Nat.le_add_left 3 _
  | case4 b1 b2 rest oddE oddLi _ =>
    intro read hread
    cases hread
    exact Nat.le_add_left 2 _

theorem length_le_of_readNacks {last : Bytes.Byte} {packet : List Bytes.Byte} :
    ∀ read ∈ readNacks last packet, read.2 ≤ packet.length := by
  fun_induction readNacks last packet with
  | case1 | case4 => exact fun _ h => (nomatch h)
  | case2 | case6 =>
    intro read hread
    cases hread
    exact Nat.zero_le _
  | case3 last b3 _ evenNack _ b1 b2 rest oddNack ih =>
    intro read hread
    obtain ⟨inner, hinner, rfl⟩ := map_eq_some_iff.mp hread
    exact Nat.add_le_add_right (ih inner hinner) 3
  | case5 =>
    intro read hread
    cases hread
    exact Nat.le_add_left 1 _

theorem headerLength_le_of_deserialize (hread : deserialize pdu = some h) :
    h.headerLength ≤ pdu.length := by
  unfold deserialize at hread
  split at hread
  · next b1 b2 rest =>
    split at hread
    · split at hread
      · next b3 b4 rest =>
        dsimp only at hread
        split at hread
        · cases hread
          exact Nat.le_add_left 4 _
        · obtain ⟨read, hlis, rfl⟩ := map_eq_some_iff.mp hread
          have hlen := length_le_of_readLis read hlis
          refine (Nat.mod_le _ _).trans ?_
          rw [Nat.add_comm]
          exact Nat.add_le_add_right hlen 4
      · cases hread
    · dsimp only at hread
      split at hread
      · split at hread
        · next b3 b4 rest =>
          obtain ⟨read, hnacks, rfl⟩ := map_eq_some_iff.mp hread
          have hlen := length_le_of_readNacks read hnacks
          refine (Nat.mod_le _ _).trans ?_
          rw [Nat.add_comm]
          exact Nat.add_le_add_right hlen 4
        · cases hread
      · cases hread
        exact Nat.le_add_left 2 _
  · cases hread

end LteRlcAmHeader

namespace LteRlcHeader

theorem headerLength_pushExtensionBit (h : LteRlcHeader) (bit : Nat)
    (hle : h.headerLength ≤ 2 + bitsLength h.extensionBits.length) :
    (h.pushExtensionBit bit).headerLength ≤ 2 + bitsLength (h.extensionBits.length + 1) := by
  unfold pushExtensionBit
  dsimp only
  rw [length_append, length_singleton]
  rcases Nat.eq_zero_or_pos h.extensionBits.length with hnone | hsome
  · rw [hnone, if_pos rfl]
    exact Nat.le_add_right _ _
  · rw [if_neg (Nat.succ_lt_succ hsome).ne']
    exact length_push_le hle hsome

theorem headerLength_foldl_pushLengthIndicator (lis : List Nat) (h : LteRlcHeader) :
    (lis.foldl pushLengthIndicator h).headerLength = h.headerLength := by
  induction lis generalizing h with
  | nil => rfl
  | cons li lis ih => exact ih _

end LteRlcHeader

/-! ## 3. Data PDUs -/

/-- A data field with its header, whose fixed part is left out of the room. -/
theorem length_of_fits {fixed headerLength : Nat} {field : DataField} (hfixed : fixed ≤ bytes)
    (hfits : field.Fits (bytes - fixed) 1)
    (hheader : headerLength ≤ fixed + bitsLength field.extensionBits.length) :
    headerLength + field.data.length ≤ bytes := by
  have hone : bitsLength 1 = 0 := rfl
  have hbits : bitsLength field.extensionBits.length =
      bitsLength (1 + (field.extensionBits.length - 1)) := by
    rcases eq_zero_or_pos field.extensionBits.length with hnone | hsome
    · rw [hnone]
      rfl
    · rw [Nat.add_sub_cancel' hsome]
  unfold DataField.Fits at hfits
  rw [← hbits, hone] at hfits
  omega

theorem LteRlcUm.length_le_of_doNotifyTxOpportunity {rlc rlc' : LteRlcUm}
    (hsend : rlc.doNotifyTxOpportunity bytes = some (rlc', some pdu)) : pdu.length ≤ bytes := by
  unfold doNotifyTxOpportunity at hsend
  split at hsend
  · cases hsend
  next hbytes =>
  split at hsend
  · cases hsend
  next first rest _ =>
  dsimp only at hsend
  obtain ⟨framingInfo, -, hsend⟩ := bind_eq_some_iff.mp hsend
  obtain ⟨packet, hadd, hsend⟩ := bind_eq_some_iff.mp hsend
  cases hsend
  rw [length_addHeader hadd]
  refine length_of_fits (Nat.not_le.mp hbytes).le (buildDataField_fits Nat.one_pos) ?_
  refine (LteRlcHeader.headerLength_foldl_pushLengthIndicator _ _).trans_le ?_
  have hpushed := foldl_push LteRlcHeader.pushExtensionBit
    (fun _ _ => length_append) LteRlcHeader.headerLength_pushExtensionBit
    (buildDataField (bytes - 2) 1 first rest (rlc.txBufferSize - sizeOf first.bytes)).extensionBits
    (h := LteRlcHeader.initial) (Nat.zero_le _)
  exact hpushed.trans_eq (by rw [LteRlcHeader.initial, length_nil, Nat.zero_add])

namespace LteRlcAm

/-- The data field is left as it is, and so is the length of its header. -/
theorem length_of_sendAgain {sn : Nat} {packet : Pdu}
    (hsend : rlc.sendAgain sn pdu = some (rlc', packet)) : packet.length = pdu.length := by
  obtain ⟨header, data, reason, hremove, hadd, -⟩ := exists_of_sendAgain hsend
  obtain ⟨read, hread, hdrop⟩ := map_eq_some_iff.mp hremove
  cases hdrop
  rw [length_addHeader hadd, poll_headerLength, length_drop,
    Nat.add_sub_cancel' (LteRlcAmHeader.headerLength_le_of_deserialize hread)]

theorem length_le_of_retransmit {sn : SequenceNumber10}
    (hbig : rlc.txOpportunityForRetxAlwaysBigEnough = false)
    (hsend : rlc.retransmit bytes rounds sn = some (rlc', some pdu)) : pdu.length ≤ bytes := by
  induction rounds generalizing sn with
  | zero => cases hsend
  | succ rounds ih =>
    unfold retransmit at hsend
    split at hsend
    · split at hsend
      · next stored _ =>
        split at hsend
        · next hfits =>
          obtain ⟨sent, hsent, heq⟩ := map_eq_some_iff.mp hsend
          cases heq
          rw [length_of_sendAgain hsent]
          exact hfits.resolve_right (by rw [hbig]; exact Bool.false_ne_true)
        · cases hsend
      · exact ih hsend
    · cases hsend

theorem length_le_of_sendNew (hbytes : 4 ≤ bytes)
    (hsend : rlc.sendNew bytes = some (rlc', some pdu)) : pdu.length ≤ bytes := by
  unfold sendNew at hsend
  split at hsend
  · cases hsend
  next first rest _ =>
  dsimp only at hsend
  split at hsend
  · cases hsend
  obtain ⟨framingInfo, -, hsend⟩ := bind_eq_some_iff.mp hsend
  obtain ⟨packet, hadd, hsend⟩ := bind_eq_some_iff.mp hsend
  cases hsend
  rw [length_addHeader hadd, poll_headerLength]
  refine length_of_fits hbytes (buildDataField_fits Nat.one_pos) ?_
  refine (LteRlcAmHeader.headerLength_foldl_pushLengthIndicator _ _).trans_le ?_
  have hpushed := foldl_push LteRlcAmHeader.pushExtensionBit
    (fun _ _ => length_append) LteRlcAmHeader.headerLength_pushExtensionBit
    (buildDataField (bytes - 4) 1 first rest
      (rlc.txonBufferSize - sizeOf first.bytes)).extensionBits
    (h := LteRlcAmHeader.initial.setDataPdu) (Nat.le_add_right 4 _)
  exact hpushed.trans_eq (by
    rw [LteRlcAmHeader.setDataPdu, LteRlcAmHeader.initial, length_nil, Nat.zero_add])

end LteRlcAm

/-! ## 4. STATUS PDUs -/

/-- A STATUS PDU with a number of NACKs. -/
def nacksLength (nacks : Nat) : Nat := 2 + 3 * (nacks / 2) + 2 * (nacks % 2)

/-- What is asked before one more is added. -/
def NackFits (bytes nacks : Nat) : Prop :=
  if nacks % 2 = 0 then nacksLength nacks < bytes else nacksLength nacks + 1 < bytes

/-- The numbers that are missing from `sn` on, in so many rounds. -/
def missing (receiver : Receiver) : Nat → SequenceNumber10 → Nat
  | 0, _ => 0
  | rounds + 1, sn =>
    if sn.lt receiver.vrMs then
      (if LteRlcAm.isComplete receiver sn then 0 else 1) + missing receiver rounds sn.succ
    else 0

theorem missing_le (receiver : Receiver) (rounds : Nat) (sn : SequenceNumber10) :
    missing receiver rounds sn ≤ rounds := by
  induction rounds generalizing sn with
  | zero => exact le_rfl
  | succ rounds ih =>
    have hle := ih sn.succ
    unfold missing
    split
    · split <;> omega
    · exact Nat.zero_le _

/-- `pushed` NACKs after there were `nacks`, with `left` still to come. -/
structure NacksPushed (bytes nacks left pushed : Nat) : Prop where
  le : nacks ≤ pushed
  le_add : pushed ≤ nacks + left
  stopped : pushed = nacks + left ∨ ¬NackFits bytes pushed
  fits : ∀ k, nacks ≤ k → k < pushed → NackFits bytes k

namespace LteRlcAmHeader

/-- The header of a STATUS PDU has counted its NACKs. -/
def Counted (h : LteRlcAmHeader) : Prop := h.headerLength = nacksLength h.nackSnList.length

theorem oneMoreNackWouldFitIn_iff (hcount : h.Counted) (bytes : Nat) :
    h.oneMoreNackWouldFitIn bytes = true ↔ NackFits bytes h.nackSnList.length := by
  unfold oneMoreNackWouldFitIn NackFits
  rw [hcount]
  split
  · exact decide_eq_true_iff
  · rw [decide_eq_true_iff]
    omega

theorem counted_pushNack (hcount : h.Counted) (nack : Nat) (hsmall : h.nackSnList.length ≤ 1024) :
    (h.pushNack nack).Counted := by
  unfold Counted nacksLength at hcount
  unfold pushNack Counted nacksLength
  dsimp only
  rw [length_append, length_singleton]
  split <;> omega

end LteRlcAmHeader

namespace LteRlcAm

open LteRlcAmHeader (Counted oneMoreNackWouldFitIn_iff counted_pushNack)

/-- One round: either no further NACK fits, or the number is passed. -/
theorem nacksPushed_of_pushNacks {receiver : Receiver} {sn sn' : SequenceNumber10}
    {h' : LteRlcAmHeader} (hcount : h.Counted) (hsmall : h.nackSnList.length + rounds ≤ 1025)
    (hpush : pushNacks receiver bytes rounds sn h = some (sn', h')) :
    h'.Counted ∧ NacksPushed bytes h.nackSnList.length (missing receiver rounds sn)
      h'.nackSnList.length := by
  induction rounds generalizing sn h with
  | zero => cases hpush
  | succ rounds ih =>
    unfold pushNacks at hpush
    unfold missing
    split at hpush
    · next hlt =>
      rw [if_pos hlt]
      split at hpush
      · next hfit =>
        split at hpush
        · next hcomplete =>
          rw [if_pos hcomplete, Nat.zero_add]
          exact ih hcount (Nat.le_of_succ_le hsmall) hpush
        · next hmissing =>
          have hlen : (h.pushNack sn.value).nackSnList.length = h.nackSnList.length + 1 :=
            length_append
          obtain ⟨hcount', hpushed⟩ := ih (counted_pushNack hcount _ (by omega)) (by omega) hpush
          rw [hlen] at hpushed
          rw [if_neg hmissing]
          refine ⟨hcount', Nat.le_of_succ_le hpushed.le, ?_, ?_, fun k hk hk' => ?_⟩
          · have hle := hpushed.le_add
            omega
          · refine hpushed.stopped.imp_left fun heq => ?_
            rw [heq, Nat.add_assoc]
          · rcases hk.eq_or_lt with rfl | hk
            · exact (oneMoreNackWouldFitIn_iff hcount bytes).mp hfit
            · exact hpushed.fits k hk hk'
      · next hfull =>
        cases hpush
        refine ⟨hcount, le_rfl, Nat.le_add_right _ _, .inr fun hfit => ?_, fun k hk hk' => ?_⟩
        · exact hfull ((oneMoreNackWouldFitIn_iff hcount bytes).mpr hfit)
        · exact absurd hk' (Nat.not_lt.mpr hk)
    · next hend =>
      rw [if_neg hend]
      cases hpush
      exact ⟨hcount, le_rfl, le_rfl, .inl rfl, fun k hk hk' => absurd hk' (Nat.not_lt.mpr hk)⟩

end LteRlcAm

/-- One NACK too many is added where two bytes are still needed and one is left. -/
theorem nacksLength_le_iff {left pushed : Nat} (hbytes : 4 ≤ bytes) (hsmall : bytes < 65536)
    (hpushed : NacksPushed (bytes % 65536) 0 left pushed) :
    nacksLength pushed ≤ bytes ↔ ¬(bytes % 3 = 0 ∧ 2 * (bytes / 3) ≤ left + 1) := by
  obtain ⟨-, hle, hstop, hfits⟩ := hpushed
  rw [Nat.mod_eq_of_lt hsmall] at hstop hfits
  rw [Nat.zero_add] at hle hstop
  constructor
  · rintro hlen ⟨hthree, hleft⟩
    -- up to this number everything fits, and one byte is left
    have hall : ∀ k, k ≤ 2 * (bytes / 3) - 2 → NackFits bytes k := by
      intro k hk
      unfold NackFits nacksLength
      split <;> omega
    have hmore : 2 * (bytes / 3) - 2 < pushed := by
      by_contra hnot
      rcases hstop with hstop | hstop
      · omega
      · exact hstop (hall pushed (Nat.not_lt.mp hnot))
    unfold nacksLength at hlen
    omega
  · intro hnot
    by_contra hlong
    rcases Nat.eq_zero_or_pos pushed with rfl | hpos
    · exact hlong ((by decide : nacksLength 0 ≤ 4).trans hbytes)
    · have hlast := hfits (pushed - 1) (Nat.zero_le _) (Nat.sub_lt hpos Nat.one_pos)
      unfold NackFits nacksLength at hlast
      unfold nacksLength at hlong
      refine hnot ⟨?_, ?_⟩ <;> split at hlast <;> omega

namespace LteRlcAm

theorem length_buildStatusPdu {receiver : Receiver}
    (hbuild : buildStatusPdu receiver bytes = some pdu) :
    ∃ pushed, pdu.length = nacksLength pushed ∧ pushed ≤ 1025 ∧
      NacksPushed (bytes % 65536) 0 (missing receiver 1025 receiver.vrR) pushed := by
  simp only [buildStatusPdu, bind_eq_bind, bind_eq_some_iff] at hbuild
  obtain ⟨⟨sn, header⟩, hpush, ackSn, -, hadd⟩ := hbuild
  split at hadd
  · have hstart : (LteRlcAmHeader.initial.setControlPdu statusPdu).Counted := rfl
    obtain ⟨hcount, hpushed⟩ := nacksPushed_of_pushNacks hstart (le_refl 1025) hpush
    refine ⟨header.nackSnList.length, ?_, ?_, hpushed⟩
    · rw [length_addHeader hadd]
      exact hcount
    · exact hpushed.le_add.trans ((zero_add _).trans_le (missing_le _ _ _))
  · cases hadd

/-- The room is such that no NACK too many is added, unless there are not so many to add. -/
def StatusFits (rlc : LteRlcAm) (bytes : Nat) : Prop :=
  (rlc.receiver.statusPduRequested && !rlc.receiver.statusProhibitTimerRunning) = true →
    ¬(bytes < 65536 ∧ bytes % 3 = 0 ∧
      2 * (bytes / 3) ≤ missing rlc.receiver 1025 rlc.receiver.vrR + 1)

theorem length_statusPdu_le_iff (hbytes : 4 ≤ bytes)
    (hstatus : (rlc.receiver.statusPduRequested && !rlc.receiver.statusProhibitTimerRunning) = true)
    (hbuild : buildStatusPdu rlc.receiver bytes = some pdu) :
    pdu.length ≤ bytes ↔ rlc.StatusFits bytes := by
  obtain ⟨pushed, hlen, hmany, hpushed⟩ := length_buildStatusPdu hbuild
  rw [hlen, StatusFits, forall_prop_of_true hstatus]
  rcases lt_or_ge bytes 65536 with hsmall | hlarge
  · rw [nacksLength_le_iff hbytes hsmall hpushed]
    exact not_congr (and_iff_right hsmall).symm
  · refine iff_of_true ?_ fun hnot => absurd hnot.1 (not_lt.mpr hlarge)
    unfold nacksLength
    omega

end LteRlcAm

/-! ### A STATUS PDU is always built -/

theorem length_serializeNacks (nacks : List Nat) : (LteRlcAmHeader.serializeNacks nacks).length =
      3 * (nacks.length / 2) + 2 * (nacks.length % 2) := by
  fun_induction LteRlcAmHeader.serializeNacks nacks with
  | case1 => rfl
  | case2 | case3 => simp
  | case4 oddNack evenNack nextNack nacks ih =>
    simp only [length_cons] at ih ⊢
    omega

theorem LteRlcAmHeader.exists_addTo (hcount : h.Counted) (hcontrol : h.dataControlBit = controlPdu)
    (packet : List Bytes.Byte) : ∃ pdu, h.addTo packet = some pdu := by
  unfold Counted nacksLength at hcount
  have hdata : ¬h.dataControlBit = dataPdu := by rw [hcontrol]; decide
  unfold addTo addHeader serialize
  rw [if_neg hdata]
  dsimp only
  split
  · next hnil =>
    rw [hnil] at hcount
    exact ⟨_, if_pos hcount.symm⟩
  · next nack nacks hcons =>
    rw [hcons] at hcount
    refine ⟨_, if_pos ?_⟩
    rw [length_cons, length_cons, length_serializeNacks, hcount]
    omega

namespace LteRlcAm

open SequenceNumber10 (place)

section Built

variable {receiver : Receiver} {base y : Nat}

/-- The rounds are enough for the numbers that are left, and leave a number within them. -/
theorem exists_pushNacks (hms : receiver.vrMs = place base y) (hy : y < base + 1024) (bytes : Nat)
    {x : Nat} (h : LteRlcAmHeader) (hx : base ≤ x) (hle : x ≤ y) (hrounds : y < x + rounds) :
    ∃ x' h', pushNacks receiver bytes rounds (place base x) h = some (place base x', h') ∧
      x ≤ x' ∧ x' ≤ y ∧ h'.dataControlBit = h.dataControlBit := by
  induction rounds generalizing x h with
  | zero => exact absurd hrounds (not_lt.mpr hle)
  | succ rounds ih =>
    unfold pushNacks
    rw [hms, lt_place hx (hle.trans_lt hy) (hx.trans hle) hy]
    split
    · next hlt =>
      split
      · obtain ⟨x', h', hpush, hx', hle', hcontrol⟩ :=
          ih (if isComplete receiver (place base x) = true then h
              else h.pushNack (place base x).value) (hx.trans x.le_succ)
            (of_decide_eq_true hlt) (by omega)
        refine ⟨x', h', by rw [succ_place]; exact hpush,
          (Nat.le_succ x).trans hx', hle', hcontrol.trans ?_⟩
        split <;> rfl
      · exact ⟨x, h, rfl, le_rfl, hle, rfl⟩
    · exact ⟨x, h, rfl, le_rfl, hle, rfl⟩

theorem exists_findAckSn (hms : receiver.vrMs = place base y) (hy : y < base + 1024) {x : Nat}
    (hx : base ≤ x) (hle : x ≤ y) (hrounds : y < x + rounds) :
    ∃ x', findAckSn receiver rounds (place base x) = some (place base x') ∧ x ≤ x' ∧ x' ≤ y := by
  induction rounds generalizing x with
  | zero => exact absurd hrounds (not_lt.mpr hle)
  | succ rounds ih =>
    unfold findAckSn
    rw [hms, lt_place hx (hle.trans_lt hy) (hx.trans hle) hy]
    split
    · next hlt =>
      rw [Bool.and_eq_true, decide_eq_true_iff] at hlt
      obtain ⟨x', hfind, hx', hle'⟩ := ih (hx.trans x.le_succ) hlt.1 (by omega)
      exact ⟨x', by rw [succ_place]; exact hfind, x.le_succ.trans hx', hle'⟩
    · exact ⟨x, rfl, le_rfl, hle⟩

/-- For any receiving window and any room both loops end and no assertion fails. -/
theorem exists_buildStatusPdu {x : Nat} (hr : receiver.vrR = place base x)
    (hms : receiver.vrMs = place base y) (hx : base ≤ x) (hle : x ≤ y) (hy : y < base + 1024)
    (bytes : Nat) : ∃ pdu, buildStatusPdu receiver bytes = some pdu := by
  obtain ⟨x', h', hpush, hx', hle', hcontrol⟩ :=
    exists_pushNacks hms hy (bytes % 65536) (LteRlcAmHeader.initial.setControlPdu statusPdu) hx hle
      (by omega : y < x + 1025)
  obtain ⟨ack, hfind, hack, hack'⟩ :=
    exists_findAckSn hms hy (hx.trans hx') hle' (by omega : y < x' + 1025)
  have hstart : (LteRlcAmHeader.initial.setControlPdu statusPdu).Counted := rfl
  have hcount := (nacksPushed_of_pushNacks hstart (le_refl 1025) hpush).1
  have hin : base ≤ ack := (hx.trans hx').trans hack
  have hackLe : (place base ack).le receiver.vrMs = true := by
    rw [hms, le_place hin (hack'.trans_lt hy) (hin.trans hack') hy]
    exact decide_eq_true hack'
  obtain ⟨pdu, hpdu⟩ := LteRlcAmHeader.exists_addTo
    (h := { h' with ackSn := place base ack }) hcount hcontrol []
  refine ⟨pdu, ?_⟩
  simp only [buildStatusPdu, hr, hpush, hfind, bind_eq_bind, Option.bind_some, hackLe, hpdu,
    if_true]

/-- Three numbers are missing, and the numbers wrap. -/
theorem exists_buildStatusPdu_wrapped : ∃ pdu, buildStatusPdu { (initial 0 false).receiver with
    vrR := place 1023 1023
    vrMs := place 1023 1026 } 4 = some pdu :=
  exists_buildStatusPdu rfl rfl le_rfl (by decide) (by decide) 4

end Built

end LteRlcAm

/-! ## 5. The PDU that is given to the MAC -/

/-- New data and retransmissions are within the transmit opportunity, in both modes, and a STATUS
PDU is exactly where `StatusFits` says so. -/
theorem pdu_le_grant_iff (bytes : Nat) (pdu : Pdu) :
    (∀ rlc rlc' : LteRlcAm, rlc.txOpportunityForRetxAlwaysBigEnough = false →
      rlc.doNotifyTxOpportunity bytes = some (rlc', some pdu) →
        (pdu.length ≤ bytes ↔ rlc.StatusFits bytes)) ∧
      ∀ rlc rlc' : LteRlcUm, rlc.doNotifyTxOpportunity bytes = some (rlc', some pdu) →
        pdu.length ≤ bytes := by
  refine ⟨fun rlc rlc' hbig hsend => ?_, fun rlc rlc' hsend => ?_⟩
  · obtain ⟨hbytes, ⟨hstatus, ⟨_, hbuild, heq⟩, -⟩ | ⟨hstatus, hdata⟩⟩ :=
      LteRlcAm.doNotifyTxOpportunity_cases hsend
    · rw [Option.some.inj heq]
      exact LteRlcAm.length_statusPdu_le_iff hbytes hstatus hbuild
    · refine iff_of_true ?_ fun hon => absurd (hstatus.symm.trans hon) Bool.false_ne_true
      rcases hdata with ⟨-, -, hretx⟩ | ⟨-, -, hnew⟩ | ⟨-, hnone⟩
      · exact LteRlcAm.length_le_of_retransmit hbig hretx
      · exact LteRlcAm.length_le_of_sendNew hbytes hnew
      · cases hnone
  · exact LteRlcUm.length_le_of_doNotifyTxOpportunity hsend

/-- A STATUS PDU is due, and the PDUs 0 to 2 are missing. -/
def threeMissing : LteRlcAm :=
  { LteRlcAm.initial 0 false with
    receiver := {
      statusPduRequested := true
      statusPduBufferSize := 4
      statusProhibitTimerRunning := false
      vrR := .ofValue 0
      vrMs := .ofValue 3
      rxonBuffer := fun _ => none } }

/-- In eight bytes there is room for the three NACKs. -/
theorem pdu_le_grant_iff_threeMissing :
    ∃ rlc' pdu, threeMissing.doNotifyTxOpportunity 8 = some (rlc', some pdu) ∧
      pdu.length = 7 ∧ threeMissing.StatusFits 8 := by
  obtain ⟨⟨rlc', packet⟩, hsend⟩ := Option.isSome_iff_exists.mp
    (by decide : (threeMissing.doNotifyTxOpportunity 8).isSome = true)
  have hpacket : (threeMissing.doNotifyTxOpportunity 8).map (fun sent => sent.2.map List.length) =
      some (some 7) := by decide
  rw [hsend] at hpacket
  obtain ⟨pdu, rfl, hlen⟩ := Option.map_eq_some_iff.mp (Option.some.inj hpacket)
  exact ⟨rlc', pdu, hsend, hlen,
    ((pdu_le_grant_iff 8 pdu).1 threeMissing rlc' rfl hsend).mp (by rw [hlen]; decide)⟩

/-- In six bytes there is room for two of them, and the third is added. -/
theorem statusPdu_longer_than_grant :
    ¬∀ (rlc rlc' : LteRlcAm) (bytes : Nat) (pdu : Pdu),
      rlc.txOpportunityForRetxAlwaysBigEnough = false →
      rlc.doNotifyTxOpportunity bytes = some (rlc', some pdu) → pdu.length ≤ bytes := by
  intro hall
  obtain ⟨⟨rlc', packet⟩, hsend⟩ := Option.isSome_iff_exists.mp
    (by decide : (threeMissing.doNotifyTxOpportunity 6).isSome = true)
  have hpacket : (threeMissing.doNotifyTxOpportunity 6).map (fun sent => sent.2.map List.length) =
      some (some 7) := by decide
  rw [hsend] at hpacket
  obtain ⟨pdu, rfl, hlen⟩ := Option.map_eq_some_iff.mp (Option.some.inj hpacket)
  have hle := hall threeMissing rlc' 6 pdu rfl hsend
  rw [hlen] at hle
  exact absurd hle (by decide)

end MoeJit.Lte
