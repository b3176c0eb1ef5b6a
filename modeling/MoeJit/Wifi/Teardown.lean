import MoeJit.Wifi.Scoreboard

/-!
# The end of a Block Ack agreement

Before the agreement is destroyed, `Flush` passes up what is buffered: what is before the start of
the scoreboard's window, and what follows without a gap. Where the two windows begin with the same
number, that is nothing of what waits beyond a gap.

`flush_right_iff`: in every state of a run, everything is passed up when no number is missing from
the start of the scoreboard's window on.
-/

namespace MoeJit.Wifi

open Circle ReorderBuffer

namespace RecipientBlockAckAgreement

def flush (agreement : RecipientBlockAckAgreement) : RecipientBlockAckAgreement × List Mpdu :=
  agreement.moveTo agreement.scoreboard.winStart

end RecipientBlockAckAgreement

/-- Every MPDU is passed up, once and in the order of the sequence numbers, and none is left. -/
structure FlushRight (agreement : RecipientBlockAckAgreement) : Prop where
  left : agreement.flush.1.bufferedMpdus = []
  passed : agreement.flush.2.Perm agreement.bufferedMpdus
  increasing : agreement.flush.2.Pairwise fun a b =>
    getDistance a.sequenceNumber agreement.winStartB <
      getDistance b.sequenceNumber agreement.winStartB

/-- Seen from `WinStartB`, the buffer has every number from the start of the scoreboard's window on,
up to that of an MPDU that it has. -/
def NothingMissing (agreement : RecipientBlockAckAgreement) : Prop :=
  ∀ m ∈ agreement.bufferedMpdus, ∀ k,
    getDistance agreement.scoreboard.winStart agreement.winStartB ≤ k →
    k ≤ getDistance m.sequenceNumber agreement.winStartB →
    ∃ m' ∈ agreement.bufferedMpdus, getDistance m'.sequenceNumber agreement.winStartB = k

section Flush

variable {agreement : RecipientBlockAckAgreement} {s : Reorder Mpdu}

theorem Represents.nothingMissing_iff (h : Represents agreement s) : NothingMissing agreement ↔
      ∀ x ∈ s.held, ∀ k,
        s.start + getDistance agreement.scoreboard.winStart agreement.winStartB ≤ k → k ≤ x.1 →
        ∃ y ∈ s.held, y.1 = k := by
  unfold NothingMissing
  rw [h.buffered]
  generalize getDistance agreement.scoreboard.winStart agreement.winStartB = ahead
  constructor
  · intro hall x hx k hk hkx
    have hdistance := h.distance_eq (h.held x hx)
    obtain ⟨m, hm, hmk⟩ := hall x.2 (List.mem_map_of_mem hx) (k - s.start)
      (Nat.le_sub_of_add_le' hk) (hdistance ▸ Nat.sub_le_sub_right hkx _)
    obtain ⟨y, hy, rfl⟩ := List.mem_map.mp hm
    rw [h.distance_eq (h.held y hy)] at hmk
    have hyle := (h.held y hy).le
    exact ⟨y, hy, by omega⟩
  · intro hall m hm k hk hkm
    obtain ⟨x, hx, rfl⟩ := List.mem_map.mp hm
    have hxle := (h.held x hx).le
    rw [h.distance_eq (h.held x hx)] at hkm
    obtain ⟨y, hy, hyk⟩ := hall x hx (s.start + k) (Nat.add_le_add_left hk _)
      ((Nat.add_le_add_left hkm _).trans_eq (Nat.add_sub_cancel' hxle))
    refine ⟨y.2, List.mem_map_of_mem hy, ?_⟩
    rw [h.distance_eq (h.held y hy), hyk, Nat.add_sub_cancel_left]

theorem Represents.flushRight_iff (h : Represents agreement s) (hs : Sound s)
    (hstart : agreement.scoreboard.winStart < seqnoSpaceSize) :
    FlushRight agreement ↔ NothingMissing agreement := by
  have hB : agreement.winStartB < seqnoSpaceSize := h.start ▸ mod_lt_space s.start
  have hgap := getDistance_eq_gap agreement.scoreboard.winStart hB
  have hahead := gap_lt (by decide : 0 < seqnoSpaceSize) agreement.scoreboard.winStart
    agreement.winStartB
  have hplace := add_gap_mod hstart s.start
  rw [← h.start, ← hgap] at hplace
  rw [h.nothingMissing_iff]
  rw [← hgap] at hahead
  generalize getDistance agreement.scoreboard.winStart agreement.winStartB = ahead at hplace hahead ⊢
  obtain ⟨out, hout, hreleased, hpassed, hmoved⟩ := h.moveTo hs
    (Nat.le_add_right s.start ahead) (Nat.add_lt_add_left hahead _)
  rw [hplace] at hpassed hmoved
  have hline : s.released ++ out ++ ((s.releaseBelow (s.start + ahead)).releaseRun).held =
      s.released ++ s.held := by
    have hkept := (line_releaseRun (s.releaseBelow (s.start + ahead))).trans
      (line_releaseBelow s (s.start + ahead))
    rwa [Reorder.line, Reorder.line, hreleased] at hkept
  rw [← held_release_eq_nil_iff hs (Nat.le_add_right s.start ahead)]
  have hempty : agreement.flush.1.bufferedMpdus = [] ↔
      (s.releaseBelow (s.start + ahead)).releaseRun.held = [] := by
    show (agreement.moveTo _).1.bufferedMpdus = [] ↔ _
    rw [hmoved.buffered, List.map_eq_nil_iff]
  constructor
  · intro hright
    exact hempty.mp hright.left
  · intro hnil
    rw [hnil, List.append_nil] at hline
    have hall : out = s.held := List.append_cancel_left hline
    have hflush : agreement.flush.2 = agreement.bufferedMpdus := by
      rw [h.buffered, ← hall]
      exact hpassed
    refine ⟨hempty.mpr hnil, List.Perm.of_eq hflush, ?_⟩
    rw [hflush, h.buffered, List.pairwise_map]
    refine hs.held_ascending.imp_of_mem fun hx hy hlt => ?_
    rw [h.distance_eq (h.held _ hx), h.distance_eq (h.held _ hy)]
    exact Nat.sub_lt_sub_right (h.held _ hx).le hlt

end Flush

/-- In every state of a run in which no MPDU moves the window to begin before number 0. -/
theorem flush_right_iff {bufferSize : Nat} (hsize : bufferSize ≤ 1024)
    {startingSeq : SequenceNumber} {calls : List Call}
    (hguard : Guarded Reception.next Allowed (some (.init bufferSize startingSeq)) calls)
    {r : Reception} (hr : r ∈ Reception.run bufferSize startingSeq calls) :
    FlushRight r.agreement ↔ NothingMissing r.agreement := by
  obtain ⟨s, hs⟩ := hguard.inv_foldl following_next (following_init hsize startingSeq) r hr
  exact hs.represents.flushRight_iff hs.sound (exact_of_run hsize hr).start_lt

/-- The first and the third MPDU of the window: the third one is buffered and passed up. -/
theorem flush_right_gap : ∃ r ∈ Reception.run 64 0 [.mpdu ⟨0, 0⟩, .mpdu ⟨1, 2⟩],
    r.agreement.bufferedMpdus = [⟨1, 2⟩] ∧ FlushRight r.agreement := by
  have hguarded : Guarded Reception.next Allowed (some (.init 64 0))
      [.mpdu ⟨0, 0⟩, .mpdu ⟨1, 2⟩] := by
    refine ⟨?_, ?_, trivial⟩
    · intro r hr
      obtain rfl := Option.some.inj hr
      exact fun hd _ => absurd hd (by decide)
    · intro r hr
      have hrun : (Reception.run 64 0 [.mpdu ⟨0, 0⟩]).map
          (fun r => decide (r.agreement.winSizeB ≤ getDistance 2 r.agreement.winStartB)) =
            some false := by decide +kernel
      obtain ⟨r', hr', hinside⟩ := Option.map_eq_some_iff.mp hrun
      obtain rfl := Option.some.inj (hr.symm.trans hr')
      exact fun hd _ => absurd hd (of_decide_eq_false hinside)
  have hrun : (Reception.run 64 0 [.mpdu ⟨0, 0⟩, .mpdu ⟨1, 2⟩]).map
      (fun r => (r.agreement.bufferedMpdus,
        getDistance r.agreement.scoreboard.winStart r.agreement.winStartB,
        getDistance 2 r.agreement.winStartB)) = some ([⟨1, 2⟩], 4095, 1) := by decide +kernel
  obtain ⟨r, hr, hstate⟩ := Option.map_eq_some_iff.mp hrun
  simp only [Prod.mk.injEq] at hstate
  obtain ⟨hbuffered, hstart, hdistance⟩ := hstate
  refine ⟨r, hr, hbuffered, (flush_right_iff (by decide) hguarded hr).mpr fun m hm k hk hkm => ?_⟩
  rw [hbuffered, List.mem_singleton] at hm
  rw [hm] at hkm
  replace hkm := hkm.trans_eq hdistance
  rw [hstart] at hk
  exact absurd (hk.trans hkm) (by decide)

/-- The second MPDU of the window is received and the agreement is destroyed: it is not passed
up. -/
theorem flush_second_mpdu : ∃ r ∈ Reception.run 64 0 [.mpdu ⟨0, 1⟩],
    r.agreement.bufferedMpdus = [⟨0, 1⟩] ∧ r.agreement.flush.2 = [] ∧ ¬FlushRight r.agreement := by
  have hrun : (Reception.run 64 0 [.mpdu ⟨0, 1⟩]).map (fun r =>
      (r.agreement.bufferedMpdus, r.agreement.flush.2, r.agreement.flush.1.bufferedMpdus)) =
        some ([⟨0, 1⟩], [], [⟨0, 1⟩]) := by decide +kernel
  obtain ⟨r, hr, heq⟩ := Option.map_eq_some_iff.mp hrun
  obtain ⟨hbuffered, hrest⟩ := Prod.mk.inj heq
  obtain ⟨hpassed, hleft⟩ := Prod.mk.inj hrest
  refine ⟨r, hr, hbuffered, hpassed, fun hright => ?_⟩
  rw [hright.left] at hleft
  cases hleft

end MoeJit.Wifi
