import MoeJit.Internet.TcpRxSack

/-!
# Reassembly

What the application reads from `TcpRxBuffer`, for segments that are cut from one stream, in any
order, of any sizes, overlapping and repeated, and any reads in between.

`stream_reassembled`: as long as each segment and the buffer are in one half of the number space,
what was read is the beginning of the stream, the bytes that wait for the application are those that
follow it, without a gap up to `nextRxSeq`, where a byte is missing, and every other byte is held
once, at its place.
-/

namespace MoeJit.Tcp

open SequenceNumber List

variable {β : Type} (stream : ℤ → β)

/-! ## 1. Statement -/

/-- The bytes of the stream from a position on. -/
def part (x : ℤ) (n : Nat) : List β := (List.range n).map fun i : ℕ => stream (x + i)

/-- The bytes of a packet are those of the stream at its place. -/
def Streamed (packet : ℤ × List β) : Prop := packet.2 = part stream packet.1 packet.2.length

/-- The buffers that segments of the stream and reads lead to, with all that was read. Byte 0 has the
number `s`. A segment from `first` on is at most half the number space away from the next read. -/
inductive Receives (s : SequenceNumber32) : TcpRxBuffer SequenceNumber32 β → List β → Prop
  | start (finSeq : SequenceNumber32) (maxBuffer : Nat) :
      Receives s { nextRxSeq := s, finSeq := finSeq, maxBuffer := maxBuffer } []
  | add {st : TcpRxBuffer SequenceNumber32 β} {out : List β} (segment : Segment SequenceNumber32 β)
      (first : Nat) (h : Receives s st out) (hseq : segment.seq = position s first)
      (hpayload : segment.payload = part stream first segment.payload.length)
      (hhalf : InOneHalf st segment) (hold : out.length < first + 2 ^ 31)
      (hnew : first < out.length + 2 ^ 31) : Receives s (st.addSegment segment).1 out
  | extract {st : TcpRxBuffer SequenceNumber32 β} {out : List β} (maxSize : Nat)
      (h : Receives s st out) :
      Receives s (st.extract maxSize).1 (out ++ (st.extract maxSize).2.getD [])

/-- A buffer on the line that holds the bytes of the stream from `low` on, each at its place. -/
structure Reassembled (low : ℤ) (line : TcpRxBuffer ℤ β) : Prop where
  sound : Sound low (low + (2 ^ 31 - 1)) line
  held : SackHeld line
  streamed : ∀ packet ∈ line.data, Streamed stream packet

/-! ## 2. Parts of the stream -/

section

variable {stream}

@[simp] theorem length_part (x : ℤ) (n : Nat) : (part stream x n).length = n := by
  rw [part, length_map, length_range]

theorem streamed_part (x : ℤ) (n : Nat) : Streamed stream (x, part stream x n) := by
  unfold Streamed
  rw [length_part]

theorem part_drop (x : ℤ) (n k : Nat) : (part stream x n).drop k = part stream (x + k) (n - k) := by
  refine ext_getElem (by simp) fun i h₁ h₂ => ?_
  simp only [part, getElem_drop, getElem_map, getElem_range, Nat.cast_add, add_assoc]

theorem part_take (x : ℤ) (n k : Nat) : (part stream x n).take k = part stream x (min k n) := by
  rw [part, ← map_take, take_range, part]

theorem part_append (x : ℤ) (n k : Nat) :
    part stream x n ++ part stream (x + n) k = part stream x (n + k) := by
  rw [← take_append_drop n (part stream x (n + k)), part_take, part_drop]
  rw [Nat.min_eq_left (Nat.le_add_right n k), Nat.add_sub_cancel_left]

theorem Streamed.drop {packet : ℤ × List β} (h : Streamed stream packet) (n : Nat) :
    Streamed stream (packet.1 + n, packet.2.drop n) := by
  unfold Streamed at h
  rw [h, part_drop]
  exact streamed_part _ _

/-- The loop of `Extract` takes the bytes from the lowest on. -/
theorem takeFront_stream {data : List (ℤ × List β)} (hdata : Ordered data) {low : ℤ}
    {extractSize : Nat} (hlow : ∀ packet ∈ data, low ≤ packet.1)
    (hholds : ∀ x, low ≤ x → x < low + extractSize → Holds data x)
    (hstream : ∀ packet ∈ data, Streamed stream packet) :
    (takeFront extractSize data).1 = part stream low extractSize := by
  induction data generalizing low extractSize with
  | nil =>
    have hzero : extractSize = 0 := by
      by_contra hne
      obtain ⟨packet, hpkt, -⟩ := hholds low le_rfl (by omega)
      exact absurd hpkt not_mem_nil
    subst hzero
    rfl
  | cons packet rest ih =>
    have hpkt : Streamed stream packet := hstream packet mem_cons_self
    have hlen := finish_eq packet
    rcases Nat.eq_zero_or_pos extractSize with rfl | hpos
    · rw [takeFront, if_pos rfl]
      rfl
    obtain rfl : packet.1 = low := by
      obtain ⟨other, hother, hle, -⟩ := hholds low le_rfl (by omega)
      have hfirst := hlow packet mem_cons_self
      rcases mem_cons.mp hother with rfl | hmem
      · omega
      · have hafter := hdata.finish_le other hmem
        have hhead := hdata.head
        omega
    by_cases hle : packet.2.length ≤ extractSize
    · have hrest : (takeFront (extractSize - packet.2.length) rest).1 = part stream (finish packet) _ :=
        ih hdata.tail hdata.finish_le (fun x h₁ h₂ => (holds_cons.mp (hholds x (by omega)
          (by omega))).resolve_left fun h => by omega)
          fun other hother => hstream other (mem_cons_of_mem _ hother)
      rw [takeFront, if_neg hpos.ne', if_pos hle]
      dsimp only
      rw [hrest, hpkt, finish_eq, length_part, part_append, Nat.add_sub_cancel' hle]
    · rw [takeFront_part hdata hpos (not_le.mp hle)]
      dsimp only
      rw [hpkt, part_take, Nat.min_eq_left (Nat.le_of_not_le hle)]

end

/-! ## 3. Steps -/

section

variable {stream} {s : SequenceNumber32} {low : ℤ} {line : TcpRxBuffer ℤ β}

theorem Reassembled.addSegment (h : Reassembled stream low line)
    {segment : Segment SequenceNumber32 β} {first : Nat} (hseq : segment.seq = position s first)
    (hpayload : segment.payload = part stream first segment.payload.length)
    (hhalf : InOneHalf (line.map (position s) id) segment) (hold : low < first + 2 ^ 31)
    (hnew : first < low + 2 ^ 31) :
    ∃ line', ((line.map (position s) id).addSegment segment).1 = line'.map (position s) id ∧
      Reassembled stream low line' := by
  obtain ⟨start, head, hline⟩ := onLine_of_half hhalf h.sound
  have hlow := hline.sound.low_le.trans hline.sound.le_high
  have hstart := hline.start_le
  -- the segment has one place in this half
  obtain rfl : head = first := by
    have hhead := hline.head
    exact (position_inj s (by omega) (by omega)).mp (hline.seq.symm.trans hseq)
  obtain ⟨hstored, heq⟩ := hline.stored h.held
  obtain ⟨-, hnext⟩ := trimToWindow_spec line first (first + segment.payload.length)
  generalize line.trimToWindow first (first + segment.payload.length) = window at hstored heq hnext
  have hspec : Removed window.1 window.2 line.size line.data (line.trimmed window.1 window.2) :=
    removeOverlap_spec hline.sound.ordered _ _ _
  refine ⟨_, heq, hstored.sound.mono (by omega), h.held.store hstored, fun packet hpkt => ?_⟩
  rcases hstored.mem packet hpkt with hmem | ⟨hlt, rfl⟩
  · exact h.streamed packet hmem
  · have hwindow := hspec.head_le.trans_lt (hlt.trans_le hspec.tail_le)
    have hhead := (hnext hwindow).2.trans hspec.head_le
    dsimp only
    rw [hpayload, part_drop, part_take, Int.toNat_of_nonneg (sub_nonneg.mpr hhead), add_sub_cancel]
    exact streamed_part _ _

theorem Reassembled.extract (h : Reassembled stream low line) (maxSize : Nat) :
    let extractSize := min maxSize line.availBytes
    Reassembled stream (low + extractSize) (line.extract maxSize).1 ∧
      (line.extract maxSize).2.getD [] = part stream low extractSize := by
  intro extractSize
  have hextracted := extract_spec h.sound (by omega) maxSize
  refine ⟨⟨hextracted.sound.mono (by omega), h.held.extract hextracted, fun packet hpkt => ?_⟩, ?_⟩
  · obtain ⟨other, hother, n, -, rfl⟩ := hextracted.part packet hpkt
    exact (h.streamed other hother).drop n
  · have havail := h.sound.avail
    have hlow := h.sound.low_le
    have htake : (takeFront extractSize line.data).1 = part stream low extractSize :=
      takeFront_stream h.sound.ordered (fun packet hpkt => (h.sound.bounds packet hpkt).1)
        (fun x h₁ h₂ => h.sound.holds x h₁ (by omega)) h.streamed
    unfold TcpRxBuffer.extract
    dsimp only
    rw [show min maxSize line.availBytes = extractSize from rfl, htake, length_part]
    by_cases hzero : extractSize = 0
    · rw [if_pos hzero, hzero]
      rfl
    · rw [if_neg hzero, if_neg hzero]
      rfl

/-! ## 4. Runs -/

/-- What was read is the beginning of the stream, and the rest of what arrived is in the buffer. -/
theorem stream_reassembled {st : TcpRxBuffer SequenceNumber32 β} {out : List β}
    (h : Receives stream s st out) : out = part stream 0 out.length ∧
      ∃ line, st = line.map (position s) id ∧ Reassembled stream out.length line := by
  induction h with
  | start finSeq maxBuffer =>
    obtain ⟨fin, -, -, rfl⟩ := exists_position s 0 finSeq
    refine ⟨rfl, { nextRxSeq := 0, finSeq := fin, maxBuffer := maxBuffer }, ?_,
      Sound.start fin maxBuffer (by rw [length_nil]; decide), fun _ h => absurd h not_mem_nil,
      fun _ h => absurd h not_mem_nil⟩
    unfold TcpRxBuffer.map
    rw [position_zero]
    rfl
  | add segment first _ hseq hpayload hhalf hold hnew ih =>
    obtain ⟨hout, line, rfl, hline⟩ := ih
    exact ⟨hout, hline.addSegment hseq hpayload hhalf (by omega) (by omega)⟩
  | extract maxSize _ ih =>
    obtain ⟨hout, line, rfl, hline⟩ := ih
    obtain ⟨hline', hread⟩ := hline.extract maxSize
    rw [extract_map hline.sound (by omega), map_id_fun, Option.map_id]
    dsimp only [id_eq]
    rw [hread, length_append, length_part]
    refine ⟨?_, _, rfl, by rw [Nat.cast_add]; exact hline'⟩
    nth_rewrite 1 [hout]
    rw [← part_append, zero_add]

end

/-- Bytes 10 to 20 arrive before bytes 0 to 10, and 15 are read. -/
theorem stream_reassembled_swapped : let st : TcpRxBuffer SequenceNumber32 (BitVec 8) :=
      { nextRxSeq := ⟨0#32⟩, finSeq := ⟨0#32⟩, maxBuffer := 100 }
    let st' := ((st.addSegment (cut 10 10 (by decide))).1.addSegment (cut 0 10 (by decide))).1
    (st'.extract 15).2.getD [] = part (BitVec.ofInt 8) 0 15 := by
  intro st st'
  have hgap : Receives (BitVec.ofInt 8) ⟨0#32⟩ (st.addSegment (cut 10 10 (by decide))).1 [] :=
    .add _ 10 (.start _ _) (by decide) (by decide) ⟨⟨0#32⟩, by unfold InHalf; decide⟩
      (by decide) (by decide)
  have hboth : Receives (BitVec.ofInt 8) ⟨0#32⟩ st' [] :=
    .add _ 0 hgap (by decide) (by decide) ⟨⟨0#32⟩, by unfold InHalf; decide⟩ (by decide) (by decide)
  have hlength : ((st'.extract 15).2.getD []).length = 15 := by decide
  have hread := (stream_reassembled (hboth.extract 15)).1
  rwa [nil_append, hlength] at hread

end MoeJit.Tcp
