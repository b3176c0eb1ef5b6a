import MoeJit.Internet.TcpRxSack

/-!
# The receive window

`MaxRxSequence` counts `maxBuffer` from the first byte that waits for the application, or from the
next byte. `Add` counts it from the first packet, and from nothing when there is none, so that a
segment that only starts in the window is stored with all its bytes (`window_exceeded`).

`window_respected`: as long as each segment ends in the window too, or arrives when a packet below
the next byte is stored, the buffer never holds more than `maxBuffer` bytes.
-/

namespace MoeJit.Tcp

open SequenceNumber List

/-! ## 1. Statement

A byte carries the `MaxRxSequence` that was in force when it arrived. -/

section

variable {σ β : Type} [DecidableEq σ] [SequenceNumber σ]

def WindowRespected (maxBuffer : Nat) (st : TcpRxBuffer σ (β × σ)) : Prop :=
  st.size ≤ maxBuffer ∧ ∀ packet ∈ st.data, ∀ (i : Nat) byte, packet.2[i]? = some byte →
    lt (add packet.1 i) byte.2 = true

/-- The segment is one that `OutOfRange` lets through. -/
structure LetThrough (st : TcpRxBuffer σ (β × σ)) (segment : Segment σ (β × σ)) : Prop where
  inRange : st.outOfRange segment.seq segment.tailSeq = false
  marked : ∀ byte ∈ segment.payload, byte.2 = st.maxRxSequence

/-- The segment ends in the window too, or finds a packet below the next byte. -/
def EndsInWindow (st : TcpRxBuffer σ β) (segment : Segment σ β) : Prop :=
  le segment.tailSeq st.maxRxSequence = true ∨
    ∃ packet ∈ st.data.head?, lt packet.1 st.nextRxSeq = true

end

/-! ## 2. The window on a line -/

section

variable {β γ : Type} {g : β → γ} {s : SequenceNumber32} {low high : ℤ} {st : TcpRxBuffer ℤ β}

theorem Sound.first_lt_iff (hst : Sound low high st) {packet : ℤ × List β}
    {rest : List (ℤ × List β)} (hdata : st.data = packet :: rest) :
    packet.1 < st.nextRxSeq ↔ packet.1 = low ∧ low < st.nextRxSeq := by
  have hordered := hst.ordered
  have hlow := (hst.bounds packet (hdata ▸ mem_cons_self)).1
  refine ⟨fun hlt => ?_, fun ⟨heq, hlt⟩ => heq ▸ hlt⟩
  obtain ⟨other, hother, hle, -⟩ := hst.holds low le_rfl (hlow.trans_lt hlt)
  rw [hdata] at hother hordered
  rcases mem_cons.mp hother with rfl | hother
  · exact ⟨le_antisymm hle hlow, hlow.trans_lt hlt⟩
  · have hafter := hordered.finish_le other hother
    have hpos := hordered.head
    omega

theorem Sound.low_eq (hst : Sound low high st)
    (hfirst : ∀ packet ∈ st.data.head?, st.nextRxSeq ≤ packet.1) : low = st.nextRxSeq := by
  refine hst.low_le.eq_or_lt.resolve_right fun hlt => ?_
  obtain ⟨packet, hpkt, hle, -⟩ := hst.holds low le_rfl hlt
  cases hdata : st.data with
  | nil =>
    rw [hdata] at hpkt
    exact absurd hpkt not_mem_nil
  | cons first rest =>
    have hordered := hst.ordered
    have hnext := hfirst first (by rw [hdata]; rfl)
    rw [hdata] at hpkt hordered
    rcases mem_cons.mp hpkt with rfl | hpkt
    · omega
    · have hafter := hordered.finish_le packet hpkt
      have hpos := hordered.head
      omega

/-- `MaxRxSequence` is the end of the window that starts at `low`. -/
theorem maxRxSequence_map (hst : Sound low high st) (hwidth : high < low + 2 ^ 31) :
    (st.map (position s) g).maxRxSequence = position s (low + st.maxBuffer) := by
  unfold TcpRxBuffer.maxRxSequence
  rw [map_gotFin, hst.gotFin, map_data, map_nextRxSeq, map_maxBuffer]
  have hlow := hst.low_le
  have hhigh := hst.le_high
  cases hdata : st.data with
  | nil =>
    have heq := hst.low_eq fun _ h => by
      rw [hdata] at h
      cases h
    rw [if_neg Bool.false_ne_true, heq, ← position_add]
    rfl
  | cons packet rest =>
    have hbounds := hst.bounds packet (hdata ▸ mem_cons_self)
    have hpos := hst.ordered.nonempty packet (hdata ▸ mem_cons_self)
    have hgt := position_gt s (x := st.nextRxSeq) (y := packet.1) (by omega) (by omega)
    have hcons : mapData (position s) g (packet :: rest) =
      (position s packet.1, packet.2.map g) :: mapData (position s) g rest := rfl
    rw [if_neg Bool.false_ne_true, hcons]
    dsimp only
    rw [hgt]
    split
    · next hlt => rw [((hst.first_lt_iff hdata).mp (of_decide_eq_true hlt)).1, position_add]
    · next hle =>
      rw [decide_eq_true_eq, not_lt] at hle
      have heq := hst.low_eq fun other hother => by
        rw [hdata, head?_cons, Option.mem_some_iff] at hother
        exact hother ▸ hle
      rw [position_add, heq]

/-- A segment starts less than half the space before the end of the window. -/
theorem exists_head {m : ℤ} {seq : SequenceNumber32} (h : gt (position s m) seq = true) :
    ∃ head, seq = position s head ∧ m ≤ head + 2 ^ 31 ∧ head < m := by
  obtain ⟨head, hge, hlt, rfl⟩ := exists_position s (m - 2 ^ 31) seq
  have hdistance := position_distance s m head
  rw [if_pos h] at hdistance
  exact ⟨head, rfl, by omega, by omega⟩

/-- It ends at the next byte or less than half the space after it. -/
theorem exists_tail {next : ℤ} {tailSeq : SequenceNumber32}
    (h : lt tailSeq (position s next) = false) :
    ∃ tail, tailSeq = position s tail ∧ next ≤ tail ∧ tail ≤ next + 2 ^ 31 := by
  obtain ⟨tail, hge, hlt, rfl⟩ := exists_position s next tailSeq
  rw [number_lt] at h
  have hdistance := position_distance s next tail
  rw [if_neg (by rw [h]; exact Bool.false_ne_true)] at hdistance
  exact ⟨tail, rfl, hge, by omega⟩

theorem tail_le {next tail m : ℤ} (hnext : next ≤ m) (hwidth : tail ≤ next + 2 ^ 31)
    (hin : lt (position s tail) (position s next) = false)
    (hle : gt (position s tail) (position s m) = false) : tail ≤ m := by
  by_contra hgt
  have hdistance := position_distance s tail m
  rw [if_neg (by rw [hle]; exact Bool.false_ne_true)] at hdistance
  -- only half the space after the next byte, with no room in the window
  have heq : next = m := by omega
  subst heq
  rw [lt, hle, Bool.not_false, Bool.true_and, decide_eq_false_iff_not, not_not,
    position_inj s (by omega) (by omega)] at hin
  omega

/-- The next byte is past the start of a segment if its position is. -/
theorem next_gt {next head m : ℤ} (hnext : next ≤ m) (hwidth : m < next + 2 ^ 31)
    (hhead : m ≤ head + 2 ^ 31) (hlt : head < m) (hgt : gt (position s m) (position s head) = true) :
    gt (position s next) (position s head) = decide (head < next) := by
  rcases hhead.eq_or_lt with heq | hnear
  · rcases hnext.eq_or_lt with rfl | hnext
    · rw [hgt, decide_eq_true hlt]
    · exact position_gt s (by omega) (by omega)
  · exact position_gt s (by omega) (by omega)

/-- What a segment is trimmed to, with the position that it starts at. -/
structure Fits (s : SequenceNumber32) (low : ℤ) (st : TcpRxBuffer ℤ β)
    (segment : Segment SequenceNumber32 γ) (head : ℤ) (window : ℤ × ℤ) : Prop where
  seq : segment.seq = position s head
  first : st.nextRxSeq ≤ window.1 ∧ window.1 ≤ low + st.maxBuffer
  last : st.nextRxSeq ≤ window.2 ∧ window.2 ≤ low + st.maxBuffer
  inside : window.1 < window.2 → head ≤ window.1 ∧ window.2 ≤ head + segment.payload.length

/-- The end of a segment is trimmed to the window when it is in it, or when the window starts with the
first packet. -/
theorem Sound.trimTail (hst : Sound low (low + st.maxBuffer) st) (hmax : st.maxBuffer ≤ 2 ^ 30)
    {packet : ℤ × List β} {rest : List (ℤ × List β)} (hdata : st.data = packet :: rest) {tail : ℤ}
    (hnext : st.nextRxSeq ≤ tail) (hwidth : tail ≤ st.nextRxSeq + 2 ^ 31)
    (hin : lt (position s tail) (position s st.nextRxSeq) = false)
    (hends : gt (position s tail) (position s (low + st.maxBuffer)) = false ∨
      packet.1 < st.nextRxSeq) :
    ∃ last, (if lt (position s (packet.1 + st.maxBuffer)) (position s tail) then
        position s (packet.1 + st.maxBuffer) else position s tail) = position s last ∧
      st.nextRxSeq ≤ last ∧ last ≤ low + st.maxBuffer ∧ last ≤ tail := by
  have hlow := hst.low_le
  have hhigh := hst.le_high
  obtain ⟨hfirst, hfinish⟩ := hst.bounds packet (hdata ▸ mem_cons_self)
  have hpos := hst.ordered.nonempty packet (hdata ▸ mem_cons_self)
  rw [number_lt]
  rcases lt_or_ge packet.1 st.nextRxSeq with hlt | hge
  · rw [((hst.first_lt_iff hdata).mp hlt).1]
    cases hgt : gt (position s tail) (position s (low + st.maxBuffer)) with
    | true =>
      have hdistance := position_distance s tail (low + st.maxBuffer)
      rw [if_pos hgt] at hdistance
      exact ⟨_, if_pos rfl, hhigh, le_rfl, by omega⟩
    | false => exact ⟨tail, if_neg Bool.false_ne_true, hnext, tail_le hhigh hwidth hin hgt, le_rfl⟩
  · have hle := tail_le hhigh hwidth hin (hends.resolve_right (not_lt.mpr hge))
    rw [position_gt s (by omega) (by omega), if_neg (by rw [decide_eq_true_eq]; omega)]
    exact ⟨tail, rfl, hnext, hle, le_rfl⟩

/-- A segment that ends in the window is trimmed to it, and so is any segment when the first packet
is below the next byte. -/
theorem Sound.fits {segment : Segment SequenceNumber32 (γ × SequenceNumber32)}
    {g : β → γ × SequenceNumber32} (hst : Sound low (low + st.maxBuffer) st)
    (hmax : st.maxBuffer ≤ 2 ^ 30) (hin : LetThrough (st.map (position s) g) segment)
    (hends : EndsInWindow (st.map (position s) g) segment) :
    ∃ head window, Fits s low st segment head window ∧
      (st.map (position s) g).trimToWindow segment.seq segment.tailSeq =
        (position s window.1, position s window.2) := by
  have hlow := hst.low_le
  have hhigh := hst.le_high
  obtain ⟨hlt, hge⟩ := Bool.or_eq_false_iff.mp hin.inRange
  unfold EndsInWindow at hends
  rw [maxRxSequence_map hst (by omega)] at hge hends
  rw [map_nextRxSeq] at hlt hends
  rw [le, Bool.not_eq_false'] at hge
  obtain ⟨head, hseq, hnear, hhead⟩ := exists_head hge
  obtain ⟨tail, htail, hnext, hwidth⟩ := exists_tail hlt
  rw [hseq] at hge
  rw [htail] at hlt hends
  -- the payload reaches from `head` to `tail`
  have hlen : (head + segment.payload.length - tail) % 2 ^ 32 = 0 := by
    have hadd : position s (head + segment.payload.length) = position s tail := by
      rw [← htail, Segment.tailSeq, hseq, position_add]
    have hsub := position_sub s (head + segment.payload.length) tail
    rw [hadd, position_sub, sub_self] at hsub
    omega
  have hstart : (if lt segment.seq (position s st.nextRxSeq) then position s st.nextRxSeq
      else segment.seq) = position s (if head < st.nextRxSeq then st.nextRxSeq else head) := by
    rw [number_lt, hseq, next_gt hhigh (by omega) hnear hhead hge, apply_ite (position s)]
    exact if_congr decide_eq_true_iff rfl rfl
  have hfirst : st.nextRxSeq ≤ (if head < st.nextRxSeq then st.nextRxSeq else head) ∧
      (if head < st.nextRxSeq then st.nextRxSeq else head) ≤ low + st.maxBuffer ∧
      head ≤ (if head < st.nextRxSeq then st.nextRxSeq else head) := by
    split <;> omega
  have hends : le (position s tail) (position s (low + st.maxBuffer)) = true ∨
      ∃ packet ∈ st.data.head?, packet.1 < st.nextRxSeq := by
    refine hends.imp_right ?_
    rintro ⟨packet, hpkt, hlt⟩
    rw [map_data, mapData, head?_map] at hpkt
    obtain ⟨packet, hhead?, rfl⟩ := Option.mem_map.mp hpkt
    have hmem := mem_of_mem_head? hhead?
    have hbounds := hst.bounds packet hmem
    have hpos := hst.ordered.nonempty packet hmem
    rw [number_lt, position_gt s (by omega) (by omega), decide_eq_true_eq] at hlt
    exact ⟨packet, hhead?, hlt⟩
  rw [le, Bool.not_eq_true'] at hends
  unfold TcpRxBuffer.trimToWindow
  rw [map_data, map_nextRxSeq, map_maxBuffer, hstart, htail]
  generalize (if head < st.nextRxSeq then st.nextRxSeq else head) = first at hfirst ⊢
  cases hdata : st.data with
  | nil =>
    have hle := tail_le hhigh hwidth hlt <| hends.resolve_right <| by
      rintro ⟨_, h, -⟩
      rw [hdata] at h
      cases h
    exact ⟨head, (first, tail), ⟨hseq, ⟨hfirst.1, hfirst.2.1⟩, ⟨hnext, hle⟩, fun h =>
      ⟨hfirst.2.2, by dsimp only at h; omega⟩⟩, rfl⟩
  | cons packet rest =>
    obtain ⟨last, hlast, hnext', hle, hle'⟩ := hst.trimTail hmax hdata hnext hwidth hlt
      (hends.imp_right <| by
        rintro ⟨other, hother, h⟩
        rw [hdata, head?_cons, Option.mem_some_iff] at hother
        exact hother ▸ h)
    have hcons : mapData (position s) g (packet :: rest) =
      (position s packet.1, packet.2.map g) :: mapData (position s) g rest := rfl
    rw [hcons]
    dsimp only
    rw [position_add, hlast, number_lt, position_gt s (by omega) (by omega)]
    refine ⟨head, (if last < first then last else first, last), ⟨hseq, ?_, ⟨hnext', hle⟩,
      fun h => ?_⟩, Prod.ext ?_ rfl⟩
    · dsimp only
      split <;> omega
    · dsimp only at h ⊢
      split at h
      · exact absurd h (lt_irrefl _)
      · next hnot =>
        rw [if_neg hnot]
        exact ⟨hfirst.2.2, by omega⟩
    · dsimp only
      rw [apply_ite (position s)]
      exact if_congr decide_eq_true_iff rfl rfl

end

/-! ## 3. Bytes with their marks -/

section

variable {β : Type} {s : SequenceNumber32} {low : ℤ} {st : TcpRxBuffer ℤ (β × ℤ)}

/-- A byte, with the number of its mark. -/
def numbered (s : SequenceNumber32) (byte : β × ℤ) : β × SequenceNumber32 :=
  (byte.1, position s byte.2)

/-- The buffer holds `maxBuffer` bytes from `low` on, each of them before its mark. -/
structure Windowed (low : ℤ) (st : TcpRxBuffer ℤ (β × ℤ)) : Prop where
  sound : Sound low (low + st.maxBuffer) st
  held : SackHeld st
  marked : ∀ packet ∈ st.data, ∀ (i : Nat) byte, packet.2[i]? = some byte →
    packet.1 + i < byte.2 ∧ byte.2 ≤ low + st.maxBuffer

section

variable (h : Windowed low st) (hmax : st.maxBuffer ≤ 2 ^ 30)
include h hmax

theorem Windowed.extract (maxSize : Nat) :
    ∃ low', Windowed low' (st.extract maxSize).1 ∧ (st.extract maxSize).1.maxBuffer = st.maxBuffer ∧
      ((st.map (position s) (numbered s)).extract maxSize).1 =
        (st.extract maxSize).1.map (position s) (numbered s) := by
  have hextracted := extract_spec h.sound (by omega) maxSize
  have hmap := extract_map (g := numbered s) (s := s) h.sound (by omega) maxSize
  have hlow := hextracted.low_le
  have hbuffer := hextracted.maxBuffer
  refine ⟨_, ⟨hextracted.sound.mono (by omega), h.held.extract hextracted, ?_⟩, hbuffer, by rw [hmap]⟩
  intro packet hpkt i byte hbyte
  obtain ⟨other, hother, n, -, rfl⟩ := hextracted.part packet hpkt
  rw [getElem?_drop] at hbyte
  obtain ⟨hlt, hle⟩ := h.marked other hother (n + i) byte hbyte
  dsimp only
  omega

theorem Windowed.addSegment {segment : Segment SequenceNumber32 (β × SequenceNumber32)}
    (hin : LetThrough (st.map (position s) (numbered s)) segment)
    (hends : EndsInWindow (st.map (position s) (numbered s)) segment) :
    ∃ st', Windowed low st' ∧ st'.maxBuffer = st.maxBuffer ∧
      ((st.map (position s) (numbered s)).addSegment segment).1 =
        st'.map (position s) (numbered s) := by
  obtain ⟨head, window, hfits, htrim⟩ := h.sound.fits hmax hin hends
  have hmarked := hin.marked
  rw [maxRxSequence_map h.sound (by omega)] at hmarked
  have hlow := h.sound.low_le
  -- the segment on the line, with the end of the window as the mark of its bytes
  let mark : β × SequenceNumber32 → β × ℤ := fun byte => (byte.1, low + st.maxBuffer)
  let line : Segment ℤ (β × ℤ) := ⟨head, segment.payload.map mark, by
    rw [length_map]
    exact segment.bounded⟩
  have hpayload : segment.payload = line.payload.map (numbered s) := by
    rw [map_map]
    exact (map_id segment.payload).symm.trans <| map_congr_left fun byte hbyte =>
      Prod.ext rfl (hmarked byte hbyte)
  have hspec : Removed window.1 window.2 st.size st.data (st.trimmed window.1 window.2) :=
    removeOverlap_spec h.sound.ordered _ _ _
  have hwindow : ∀ {x}, st.nextRxSeq ≤ x ∧ x ≤ low + st.maxBuffer → Window low x :=
    fun hx => ⟨hlow.trans hx.1, by omega⟩
  obtain ⟨hstored, hmap⟩ := h.held.stored h.sound le_rfl (by omega) (hwindow hfits.first)
    (hwindow hfits.last) hpayload hfits.seq fun hlt => by
      obtain ⟨hle, hle'⟩ := hfits.inside hlt
      refine ⟨hfits.first.1, hle, ?_, hfits.last.2⟩
      rwa [length_map]
  refine ⟨_, ⟨?_, h.held.store hstored, ?_⟩, hstored.maxBuffer, ?_⟩
  · rw [hstored.maxBuffer]
    exact hstored.sound
  · rw [hstored.maxBuffer]
    intro packet hpkt i byte hbyte
    rcases hstored.mem packet hpkt with hold | ⟨hlt, rfl⟩
    · exact h.marked packet hold i byte hbyte
    · obtain ⟨hbefore, -⟩ := List.getElem?_eq_some_iff.mp hbyte
      have hlen := hbefore.trans_le (length_take_le _ _)
      have htail := hspec.tail_le.trans hfits.last.2
      obtain ⟨byte', -, rfl⟩ := mem_map.mp
        (mem_of_mem_drop (mem_of_mem_take (mem_of_getElem? hbyte)))
      dsimp only [mark]
      omega
  · rw [← hmap, TcpRxBuffer.addSegment, htrim]

theorem Windowed.respected : WindowRespected st.maxBuffer (st.map (position s) (numbered s)) := by
  have htotal := h.sound.total_le
  refine ⟨?_, fun packet hpkt i byte hbyte => ?_⟩
  · rw [map_size, h.sound.size]
    omega
  · obtain ⟨packet, hmem, rfl⟩ := mem_map.mp hpkt
    rw [getElem?_map] at hbyte
    obtain ⟨byte, hbyte', rfl⟩ := Option.map_eq_some_iff.mp hbyte
    obtain ⟨hlt, hle⟩ := h.marked packet hmem i byte hbyte'
    have hlow := (h.sound.bounds packet hmem).1
    rw [number_lt, position_add]
    dsimp only [numbered]
    rw [position_gt s (by omega) (by omega), decide_eq_true hlt]

end

end

/-! ## 4. Runs -/

section

variable {β : Type} {maxBuffer : Nat} {st : TcpRxBuffer SequenceNumber32 (β × SequenceNumber32)}

theorem Reached.windowed (hmax : maxBuffer ≤ 2 ^ 30)
    (h : Reached (fun st segment => LetThrough st segment ∧ EndsInWindow st segment) maxBuffer st) :
    ∃ (s : SequenceNumber32) (low : ℤ) (line : TcpRxBuffer ℤ (β × ℤ)),
      st = line.map (position s) (numbered s) ∧ line.maxBuffer = maxBuffer ∧ Windowed low line := by
  induction h with
  | start nextRxSeq finSeq =>
    obtain ⟨fin, -, -, rfl⟩ := exists_position nextRxSeq 0 finSeq
    refine ⟨nextRxSeq, 0, { nextRxSeq := 0, finSeq := fin, maxBuffer := maxBuffer }, ?_, rfl,
      Sound.start fin maxBuffer (by dsimp only; omega), fun _ h => absurd h not_mem_nil,
      fun _ h => absurd h not_mem_nil⟩
    unfold TcpRxBuffer.map
    rw [position_zero]
    rfl
  | add segment _ harrives ih =>
    obtain ⟨s, low, line, rfl, rfl, hwindowed⟩ := ih
    obtain ⟨line', hwindowed', hbuffer, heq⟩ := hwindowed.addSegment hmax harrives.1 harrives.2
    exact ⟨s, low, line', heq, hbuffer, hwindowed'⟩
  | extract maxSize _ ih =>
    obtain ⟨s, low, line, rfl, rfl, hwindowed⟩ := ih
    obtain ⟨low', hwindowed', hbuffer, heq⟩ := hwindowed.extract (s := s) hmax maxSize
    exact ⟨s, low', _, heq, hbuffer, hwindowed'⟩

/-- The window is respected as long as the segments end in it, or find a packet below the next byte.
A window has at most `2 ^ 30` bytes, so that its end is in one half of the space with its start. -/
theorem window_respected (hmax : maxBuffer ≤ 2 ^ 30)
    (h : Reached (fun st segment => LetThrough st segment ∧ EndsInWindow st segment) maxBuffer st) :
    WindowRespected maxBuffer st := by
  obtain ⟨s, low, line, rfl, rfl, hwindowed⟩ := h.windowed hmax
  exact hwindowed.respected hmax

end

/-- Bytes from a number on, with a mark. -/
def marked (first length : Nat) (h : length < 2 ^ 32) (mark : SequenceNumber32) :
    Segment SequenceNumber32 (Unit × SequenceNumber32) where
  seq := ⟨BitVec.ofNat 32 first⟩
  payload := List.replicate length ((), mark)
  bounded := by rwa [List.length_replicate]

/-- Bytes 4 to 10 of a window of ten arrive. -/
theorem window_respected_ten :
    let st : TcpRxBuffer SequenceNumber32 (Unit × SequenceNumber32) :=
      { nextRxSeq := ⟨0#32⟩, finSeq := ⟨0#32⟩, maxBuffer := 10 }
    WindowRespected 10 (st.addSegment (marked 4 6 (by decide) ⟨10#32⟩)).1 :=
  window_respected (by decide) (Reached.add _ (Reached.start _ _)
    ⟨⟨by decide, fun _ h => (List.mem_replicate.mp h).2 ▸ rfl⟩, .inl (by decide)⟩)

/-- Twenty bytes from the next one on are stored in an empty buffer of ten. -/
theorem window_exceeded :
    ¬∀ (maxBuffer : Nat) (st : TcpRxBuffer SequenceNumber32 (Unit × SequenceNumber32)),
      Reached LetThrough maxBuffer st → WindowRespected maxBuffer st := by
  intro h
  have hempty : Reached (β := Unit × SequenceNumber32) LetThrough 10
      { nextRxSeq := ⟨0#32⟩, finSeq := ⟨0#32⟩, maxBuffer := 10 } := Reached.start _ _
  have hst := h 10 _ (Reached.add (marked 0 20 (by decide) ⟨10#32⟩) hempty
    ⟨by decide, fun _ h => (List.mem_replicate.mp h).2 ▸ rfl⟩)
  exact absurd hst.1 (by decide)

end MoeJit.Tcp
