import MoeJit.Internet.TcpRxLine

/-!
# The SACK list of the receive buffer

`UpdateSackList` merges a new block with those that touch it, but `Add` also gives up packets that a
segment covers, and their block stays in the list beside the new one (`sackList_untruthful`).

`sackList_truthful`: as long as no segment above `nextRxSeq` covers a packet with missing bytes in
front of it, the blocks are held and apart, and the first one is the segment with all it touches.
-/

namespace MoeJit.Tcp

open SequenceNumber List

/-! ## 1. Statement -/

section

variable {σ β : Type} [DecidableEq σ] [SequenceNumber σ]

/-- The byte with a number is in a packet. -/
def HoldsByte (data : List (σ × List β)) (x : σ) : Prop :=
  ∃ packet ∈ data, le packet.1 x = true ∧ sub x packet.1 < packet.2.length

/-- At most four blocks, all of them held and above `nextRxSeq`, with missing bytes in between. -/
structure Truthful (st : TcpRxBuffer σ β) : Prop where
  length_le : st.sackList.length ≤ 4
  above : ∀ block ∈ st.sackList, gt block.1 st.nextRxSeq = true ∧ lt block.1 block.2 = true
  holds : ∀ block ∈ st.sackList, ∀ n < sub block.2 block.1, HoldsByte st.data (add block.1 n)
  apart : st.sackList.Pairwise fun block other =>
    lt block.2 other.1 = true ∨ lt other.2 block.1 = true

/-- The first block has the new one, and is merged of it and the blocks that touch it. -/
def Merged (head tail : σ) (before after : List (σ × σ)) : Prop :=
  ∃ first rest, after = first :: rest ∧ (∀ block ∈ rest, block ∈ before) ∧
    (le first.1 head = true ∧ le tail first.2 = true) ∧
    ((first.1 = head ∧ ∀ block ∈ before, block.2 ≠ head) ∨
      ∃ block ∈ before, block.2 = head ∧ first.1 = block.1) ∧
    ((first.2 = tail ∧ ∀ block ∈ before, block.1 ≠ tail) ∨
      ∃ block ∈ before, block.1 = tail ∧ first.2 = block.2)

/-- A segment above `nextRxSeq` goes on after a packet that it has missing bytes in front of. -/
def Covers (st : TcpRxBuffer σ β) (segment : Segment σ β) : Prop :=
  let window := st.trimToWindow segment.seq segment.tailSeq
  gt window.1 st.nextRxSeq = true ∧ ∃ packet ∈ st.data,
    lt (add packet.1 packet.2.length) window.2 = true ∧
      ∃ x, le window.1 x = true ∧ lt x packet.1 = true ∧ ¬HoldsByte st.data x

/-- What is stored of the segment, if it is above `nextRxSeq`. -/
def StoresAbove (st : TcpRxBuffer σ β) (segment : Segment σ β) (head tail : σ) : Prop :=
  let window := st.trimToWindow segment.seq segment.tailSeq
  let trimmed := st.trimmed window.1 window.2
  trimmed.headSeq = head ∧ trimmed.tailSeq = tail ∧ ge head tail = false ∧
    gt head st.nextRxSeq = true

end

/-- `n` bytes from a number on are in the half of the space that starts at `start`. -/
def InHalf (start a : SequenceNumber32) (n : Nat) : Prop := (a - start).toNat + n < 2 ^ 31

/-- The segment and the buffer are in one half of the space. -/
def InOneHalf {β : Type} (st : TcpRxBuffer SequenceNumber32 β)
    (segment : Segment SequenceNumber32 β) : Prop :=
  ∃ start, InHalf start segment.seq segment.payload.length ∧ InHalf start st.nextRxSeq 0 ∧
    (∀ packet ∈ st.data, InHalf start packet.1 packet.2.length) ∧
    ∀ packet ∈ st.data.head?, InHalf start packet.1 st.maxBuffer

/-- A segment that is in one half of the space with the buffer, and covers no packet. -/
structure Orderly {β : Type} (st : TcpRxBuffer SequenceNumber32 β)
    (segment : Segment SequenceNumber32 β) : Prop where
  half : InOneHalf st segment
  not_covers : ¬Covers st segment

/-! ## 2. Blocks on a line -/

/-- Bytes are missing between two blocks. -/
def Separate (block other : ℤ × ℤ) : Prop := block.2 < other.1 ∨ other.2 < block.1

theorem Separate.symm {block other : ℤ × ℤ} (h : Separate block other) : Separate other block :=
  Or.symm h

/-- Blocks with missing bytes in between, and one that meets none of them. -/
structure Mergeable (begin : ℤ × ℤ) (blocks : List (ℤ × ℤ)) : Prop where
  begin_lt : begin.1 < begin.2
  lt : ∀ block ∈ blocks, block.1 < block.2
  apart : blocks.Pairwise Separate
  meets : ∀ block ∈ blocks, block.2 ≤ begin.1 ∨ begin.2 ≤ block.1

/-- A block that touches is apart from the others, and so is the merged one. -/
theorem Mergeable.merge {begin merged : ℤ × ℤ} {blocks rest : List (ℤ × ℤ)}
    (h : Mergeable begin blocks) (hfirst : mergeFirst begin blocks = some (merged, rest)) :
    Mergeable merged rest ∧ ∃ current ∈ blocks, (∀ block ∈ rest, Separate current block) ∧
      blocks.Perm (current :: rest) ∧
      ((begin.1 = current.2 ∧ merged = (current.1, begin.2)) ∨
        (begin.2 = current.1 ∧ merged = (begin.1, current.2))) := by
  obtain ⟨hsub, current, hperm, htouch⟩ := mergeFirst_spec hfirst
  have hcur : current ∈ blocks := hperm.mem_iff.mpr mem_cons_self
  have hlt := h.lt current hcur
  have hbegin := h.begin_lt
  have hapart : ∀ block ∈ rest, Separate current block :=
    (pairwise_cons.mp ((hperm.pairwise_iff fun h => Separate.symm h).mp h.apart)).1
  have hrest : ∀ block ∈ rest, block.1 < block.2 := fun block hblock =>
    h.lt block (hsub.subset hblock)
  refine ⟨?_, current, hcur, hapart, hperm, htouch⟩
  rcases htouch with ⟨heq, rfl⟩ | ⟨heq, rfl⟩
  all_goals
    refine ⟨by dsimp only; omega, hrest, h.apart.sublist hsub, fun block hblock => ?_⟩
    have hmeets := h.meets block (hsub.subset hblock)
    have hblock' := hrest block hblock
    have hseparate := hapart block hblock
    unfold Separate at hseparate
    dsimp only
    omega

variable {blocks : List (ℤ × ℤ)} {head tail : ℤ}

theorem mergeBlocks_apart {fuel : Nat} {begin : ℤ × ℤ} (h : Mergeable begin blocks)
    (hfuel : blocks.length ≤ fuel) :
    (mergeBlocks fuel begin blocks).Pairwise Separate ∧
      (mergeBlocks fuel begin blocks).length ≤ blocks.length + 1 := by
  induction fuel generalizing begin blocks with
  | zero =>
    rw [length_eq_zero_iff.mp (Nat.le_zero.mp hfuel)]
    exact ⟨pairwise_singleton _ _, le_rfl⟩
  | succ fuel ih =>
    rw [mergeBlocks]
    split
    · next hnone =>
      refine ⟨pairwise_cons.mpr ⟨fun block hblock => ?_, h.apart⟩, le_rfl⟩
      have hmeets := h.meets block hblock
      have hne := mergeFirst_eq_none hnone block hblock
      unfold Separate
      omega
    · next merged rest hfirst =>
      obtain ⟨hmerge, current, -, -, hperm, -⟩ := h.merge hfirst
      have hlen := hperm.length_eq
      rw [length_cons] at hlen
      obtain ⟨hapart, hle⟩ := ih hmerge (by omega)
      exact ⟨hapart, by omega⟩

theorem mergeBlocks_merged {fuel : Nat} {begin : ℤ × ℤ} (h : Mergeable begin blocks)
    (hfuel : blocks.length ≤ fuel) :
    Merged begin.1 begin.2 blocks (mergeBlocks fuel begin blocks) := by
  induction fuel generalizing begin blocks with
  | zero =>
    rw [length_eq_zero_iff.mp (Nat.le_zero.mp hfuel)]
    exact ⟨begin, [], rfl, fun _ h => absurd h not_mem_nil, ⟨int_le.mpr le_rfl, int_le.mpr le_rfl⟩,
      .inl ⟨rfl, fun _ h => absurd h not_mem_nil⟩, .inl ⟨rfl, fun _ h => absurd h not_mem_nil⟩⟩
  | succ fuel ih =>
    rw [mergeBlocks]
    split
    · next hnone =>
      have hne := mergeFirst_eq_none hnone
      exact ⟨begin, blocks, rfl, fun _ h => h, ⟨int_le.mpr le_rfl, int_le.mpr le_rfl⟩,
        .inl ⟨rfl, fun block hblock => (hne block hblock).1.symm⟩,
        .inl ⟨rfl, fun block hblock => (hne block hblock).2.symm⟩⟩
    · next merged rest hfirst =>
      obtain ⟨hmerge, current, hcur, hapart, hperm, htouch⟩ := h.merge hfirst
      have hlen := hperm.length_eq
      rw [length_cons] at hlen
      obtain ⟨first, others, heq, hothers, ⟨hle, hge⟩, hleft, hright⟩ := ih hmerge (by omega)
      have hmem : ∀ block, block ∈ blocks ↔ block = current ∨ block ∈ rest := fun block =>
        hperm.mem_iff.trans mem_cons
      have hlt := h.begin_lt
      have hcur' := h.lt current hcur
      rw [int_le] at hle hge
      -- no other block touches `current`
      have hnot : ∀ block ∈ rest, block.2 ≠ current.1 ∧ block.1 ≠ current.2 := by
        intro block hblock
        have hblock' := h.lt block ((hmem block).mpr (.inr hblock))
        have hseparate := hapart block hblock
        unfold Separate at hseparate
        omega
      refine ⟨first, others, heq, fun block hblock => (hmem block).mpr (.inr (hothers block hblock)), ?_⟩
      rw [int_le, int_le]
      rcases htouch with ⟨htouch, rfl⟩ | ⟨htouch, rfl⟩
      · dsimp only at hle hge hleft hright
        have hfirst' : first.1 = current.1 := by
          rcases hleft with ⟨h, -⟩ | ⟨block, hblock, h, -⟩
          · exact h
          · exact absurd h (hnot block hblock).1
        refine ⟨⟨by omega, hge⟩, .inr ⟨current, hcur, htouch.symm, hfirst'⟩, ?_⟩
        rcases hright with ⟨heq, hno⟩ | ⟨block, hblock, h⟩
        · refine .inl ⟨heq, fun block hblock => ?_⟩
          rcases (hmem block).mp hblock with rfl | hblock
          · exact (hcur'.trans_le (htouch.ge.trans hlt.le)).ne
          · exact hno block hblock
        · exact .inr ⟨block, (hmem block).mpr (.inr hblock), h⟩
      · dsimp only at hle hge hleft hright
        have hlast : first.2 = current.2 := by
          rcases hright with ⟨h, -⟩ | ⟨block, hblock, h, -⟩
          · exact h
          · exact absurd h (hnot block hblock).2
        refine ⟨⟨hle, by omega⟩, ?_, .inr ⟨current, hcur, htouch.symm, hlast⟩⟩
        rcases hleft with ⟨heq, hno⟩ | ⟨block, hblock, h⟩
        · refine .inl ⟨heq, fun block hblock => ?_⟩
          rcases (hmem block).mp hblock with rfl | hblock
          · exact (hlt.trans_le (htouch.le.trans hcur'.le)).ne'
          · exact hno block hblock
        · exact .inr ⟨block, (hmem block).mpr (.inr hblock), h⟩

/-- Of at most four blocks and a new one at most four are kept. -/
theorem updateSackList_spec (h : Mergeable (head, tail) blocks) (hlen : blocks.length ≤ 4) :
    (updateSackList head tail blocks).length ≤ 4 ∧
      (updateSackList head tail blocks).Pairwise Separate ∧
      Merged head tail blocks (updateSackList head tail blocks) := by
  obtain ⟨hapart, hle⟩ := mergeBlocks_apart h le_rfl
  have hmerged := mergeBlocks_merged h le_rfl
  unfold updateSackList
  dsimp only
  split
  · next hlong =>
    refine ⟨?_, hapart.sublist (dropLast_sublist _), ?_⟩
    · rw [length_dropLast]
      omega
    · obtain ⟨first, rest, heq, hrest, hfirst⟩ := hmerged
      rw [heq, length_cons] at hlong
      have hne : rest ≠ [] := fun h => by
        rw [h] at hlong
        exact absurd hlong (by decide)
      refine ⟨first, rest.dropLast, ?_, fun block hblock =>
        hrest block (mem_of_mem_dropLast hblock), hfirst⟩
      rw [heq, dropLast_cons_of_ne_nil hne]
  · next hshort => exact ⟨not_lt.mp hshort, hapart, hmerged⟩

/-! ## 3. Blocks that are held -/

section

variable {β : Type} {low high : ℤ} {st st' : TcpRxBuffer ℤ β}

/-- All blocks are held and above `nextRxSeq`, whatever segments arrive. -/
def SackHeld (st : TcpRxBuffer ℤ β) : Prop :=
  ∀ block ∈ st.sackList, st.nextRxSeq < block.1 ∧ block.1 < block.2 ∧
    ∀ x, block.1 ≤ x → x < block.2 → Holds st.data x

theorem SackHeld.inWindow (h : SackHeld st) {start : ℤ} (hst : Sound low high st)
    (hstart : start ≤ low) (hwidth : high < start + 2 ^ 31) :
    BlocksInWindow (Window start) st.sackList := by
  intro block hblock
  obtain ⟨hnext, hlt, hholds⟩ := h block hblock
  obtain ⟨packet, hpkt, -, hlast⟩ := hholds (block.2 - 1) (by omega) (by omega)
  have hbounds := hst.bounds packet hpkt
  have hlow := hst.low_le
  exact ⟨⟨by omega, by omega⟩, by omega, by omega⟩

variable {segment : Segment ℤ β} {trimmed : Trimmed ℤ β}

/-- No byte is lost when a segment is put in, and the next one that is missing is in no block. -/
theorem SackHeld.store (h : SackHeld st) (hstored : Stored low high st segment trimmed st') :
    SackHeld st' := by
  have hlist : ∀ block ∈ (if trimmed.headSeq < trimmed.tailSeq ∧ st.nextRxSeq < trimmed.headSeq then
      updateSackList trimmed.headSeq trimmed.tailSeq st.sackList else st.sackList),
      st.nextRxSeq < block.1 ∧ block.1 < block.2 ∧
        ∀ x, block.1 ≤ x → x < block.2 → Holds st'.data x := by
    have hold : ∀ block ∈ st.sackList, st.nextRxSeq < block.1 ∧ block.1 < block.2 ∧
        ∀ x, block.1 ≤ x → x < block.2 → Holds st'.data x := fun block hblock => by
      obtain ⟨hnext, hlt, hholds⟩ := h block hblock
      exact ⟨hnext, hlt, fun x h₁ h₂ => (hstored.holds x).mpr (.inl (hholds x h₁ h₂))⟩
    split
    · next hnew =>
      refine updateSackList_forall (p := fun block => st.nextRxSeq < block.1 ∧ block.1 < block.2 ∧
        ∀ x, block.1 ≤ x → x < block.2 → Holds st'.data x) ?_ ⟨hnew.2, hnew.1, fun x h₁ h₂ =>
        (hstored.holds x).mpr (.inr ⟨h₁, h₂⟩)⟩ hold
      rintro a b c ⟨hnext, hlt, hholds⟩ ⟨-, hlt', hholds'⟩
      refine ⟨hnext, hlt.trans hlt', fun x h₁ h₂ => ?_⟩
      rcases lt_or_ge x b with h | h
      · exact hholds x h₁ h
      · exact hholds' x h h₂
    · exact hold
  have hsound := hstored.sound
  have hle := hstored.next_le
  intro block hblock
  rw [hstored.sack] at hblock
  dsimp only at hblock
  split at hblock
  · next hsame =>
    rw [hsame]
    exact hlist block hblock
  · unfold clearSackList at hblock
    obtain ⟨hmem, hpast⟩ := mem_filter.mp hblock
    obtain ⟨hnext, hlt, hholds⟩ := hlist block hmem
    rw [Bool.not_eq_true', ← Bool.not_eq_true, int_le, not_le] at hpast
    refine ⟨?_, hlt, hholds⟩
    by_contra hin
    exact hsound.not_holds (hholds st'.nextRxSeq (not_lt.mp hin) hpast)

/-- A segment of sequence numbers is put in as on the line, when what it is trimmed to has its place
there. -/
theorem SackHeld.stored {γ : Type} {g : β → γ} {s : SequenceNumber32} {start : ℤ} {window : ℤ × ℤ}
    {segment' : Segment SequenceNumber32 γ} (h : SackHeld st) (hst : Sound low high st)
    (hstart : start ≤ low) (hwidth : high < start + 2 ^ 31) (hfirst : Window start window.1)
    (hlast : Window start window.2) (hpayload : segment'.payload = segment.payload.map g)
    (hseq : segment'.seq = position s segment.seq)
    (hinside : window.1 < window.2 → st.nextRxSeq ≤ window.1 ∧ segment.seq ≤ window.1 ∧
      window.2 ≤ segment.seq + segment.payload.length ∧ window.2 ≤ high) :
    Stored low high st segment (st.trimmed window.1 window.2)
        (st.store segment window.1 window.2).1 ∧
      ((st.map (position s) g).store segment' (position s window.1) (position s window.2)).1 =
        (st.store segment window.1 window.2).1.map (position s) g := by
  refine ⟨store_spec hst (by omega) hinside, store_map hst hstart hwidth
    (h.inWindow hst hstart hwidth) hfirst hlast hpayload fun x hle hlt => ?_⟩
  obtain ⟨-, hhead, htail, -⟩ := hinside (hle.trans_lt hlt)
  have hlen := segment.bounded
  rw [hseq, position_sub, Int.emod_eq_of_lt (by omega) (by omega)]

/-- Moreover there are at most four, with missing bytes in between. -/
structure SackInv (st : TcpRxBuffer ℤ β) : Prop where
  held : SackHeld st
  length_le : st.sackList.length ≤ 4
  apart : st.sackList.Pairwise Separate

/-- If no packet is given up, what is left of a segment meets no block. -/
theorem SackInv.mergeable (h : SackInv st) (hspec : Removed head tail st.size st.data trimmed)
    (hkeep : trimmed.data = st.data) (hlt : trimmed.headSeq < trimmed.tailSeq) :
    Mergeable (trimmed.headSeq, trimmed.tailSeq) st.sackList := by
  refine ⟨hlt, fun block hblock => (h.held block hblock).2.1, h.apart, fun block hblock => ?_⟩
  obtain ⟨-, hblock', hholds⟩ := h.held block hblock
  by_contra hmeets
  rw [not_or, not_le, not_le] at hmeets
  dsimp only at hmeets
  -- a byte of both
  obtain ⟨packet, hpkt, hle, hlast⟩ :=
    hholds (max trimmed.headSeq block.1) (le_max_right _ _) (by omega)
  have hapart := hspec.apart packet (hkeep ▸ hpkt)
  omega

theorem SackInv.store (h : SackInv st) (hst : Sound low high st)
    (hspec : Removed head tail st.size st.data trimmed)
    (hstored : Stored low high st segment trimmed st')
    (hkeep : trimmed.headSeq < trimmed.tailSeq → st.nextRxSeq < trimmed.headSeq →
      trimmed.data = st.data) :
    SackInv st' ∧ (trimmed.headSeq < trimmed.tailSeq → st.nextRxSeq < trimmed.headSeq →
      Merged trimmed.headSeq trimmed.tailSeq st.sackList st'.sackList) := by
  have hsack := hstored.sack
  dsimp only at hsack
  by_cases hnew : trimmed.headSeq < trimmed.tailSeq ∧ st.nextRxSeq < trimmed.headSeq
  · obtain ⟨hlen, hapart, hmerged⟩ :=
      updateSackList_spec (h.mergeable hspec (hkeep hnew.1 hnew.2) hnew.1) h.length_le
    -- the next byte is still missing
    have hsame : st'.nextRxSeq = st.nextRxSeq := by
      refine le_antisymm (not_lt.mp fun hlt => ?_) hstored.next_le
      have hholds := hstored.sound.holds st.nextRxSeq (hst.low_le) hlt
      rcases (hstored.holds st.nextRxSeq).mp hholds with hold | ⟨hle, -⟩
      · exact hst.not_holds hold
      · exact absurd hle (not_le.mpr hnew.2)
    rw [if_pos hsame, if_pos hnew] at hsack
    rw [← hsack] at hlen hapart hmerged
    exact ⟨⟨h.held.store hstored, hlen, hapart⟩, fun _ _ => hmerged⟩
  · have hsub : st'.sackList.Sublist st.sackList := by
      rw [hsack, if_neg hnew]
      split
      · exact List.Sublist.refl _
      · exact filter_sublist
    exact ⟨⟨h.held.store hstored, hsub.length_le.trans h.length_le, h.apart.sublist hsub⟩,
      fun h₁ h₂ => absurd ⟨h₁, h₂⟩ hnew⟩

theorem SackHeld.extract {low' : ℤ} (h : SackHeld st) (hextracted : Extracted low high st st' low') :
    SackHeld st' := by
  intro block hblock
  rw [hextracted.sack] at hblock
  obtain ⟨hnext, hlt, hholds⟩ := h block hblock
  have hlow := hextracted.sound.low_le
  have hsame := hextracted.next
  exact ⟨by omega, hlt, fun x h₁ h₂ => (hextracted.holds x).mpr ⟨hholds x h₁ h₂, by omega⟩⟩

end

/-! ## 4. From the line to sequence numbers -/

section

variable {β : Type} {s : SequenceNumber32} {low high start : ℤ} {st : TcpRxBuffer ℤ β}

theorem holdsByte_iff {data : List (ℤ × List β)} {x : ℤ} : HoldsByte data x ↔ Holds data x := by
  refine exists_congr fun packet => and_congr_right fun _ => ?_
  rw [int_le, int_sub, finish_eq]
  omega

theorem holdsByte_map {data : List (ℤ × List β)} (hdata : InWindow (Window start) data) {x : ℤ}
    (hx : Window start x) :
    HoldsByte (mapData (position s) id data) (position s x) ↔ Holds data x := by
  have e := agrees_position s start
  rw [← holdsByte_iff]
  unfold HoldsByte mapData
  simp only [mem_map, exists_exists_and_eq_and]
  refine exists_congr fun packet => and_congr_right fun hpkt => ?_
  have hfirst := (hdata packet hpkt).1
  rw [e.le hfirst hx, length_map]
  refine and_congr_right fun hle => ?_
  rw [int_le] at hle
  rw [e.sub hx hfirst (by rw [← Bool.not_eq_true, int_gt]; omega)]

theorem truthful_map (h : SackInv st) (hst : Sound low high st) (hwidth : high < low + 2 ^ 31) :
    Truthful (st.map (position s) id) := by
  have e := agrees_position s low
  have hwindow := hst.inWindow le_rfl hwidth
  have hblocks := h.held.inWindow hst le_rfl hwidth
  have hnext : Window low st.nextRxSeq := ⟨hst.low_le, hst.le_high.trans_lt hwidth⟩
  refine ⟨?_, ?_, ?_, ?_⟩
  · rw [map_sackList, mapBlocks, length_map]
    exact h.length_le
  · rw [map_sackList, mapBlocks, forall_mem_map]
    intro block hblock
    obtain ⟨hfirst, hlast⟩ := hblocks block hblock
    obtain ⟨hgt, hlt, -⟩ := h.held block hblock
    rw [map_nextRxSeq, e.gt hfirst hnext, e.lt hfirst hlast, int_gt, int_lt]
    exact ⟨hgt, hlt⟩
  · rw [map_sackList, mapBlocks, forall_mem_map]
    intro block hblock n hn
    obtain ⟨hfirst, hlast⟩ := hblocks block hblock
    obtain ⟨-, hlt, hholds⟩ := h.held block hblock
    rw [e.sub hlast hfirst (by rw [← Bool.not_eq_true, int_gt]; omega), int_sub] at hn
    rw [position_add, map_data, holdsByte_map hwindow]
    · exact hholds _ (by omega) (by omega)
    · obtain ⟨hlow, -⟩ := hfirst
      obtain ⟨-, hhigh⟩ := hlast
      exact ⟨by omega, by omega⟩
  · rw [map_sackList, mapBlocks, pairwise_map]
    refine h.apart.imp_of_mem fun {block other} hblock hother hseparate => ?_
    rw [e.lt (hblocks block hblock).2 (hblocks other hother).1,
      e.lt (hblocks other hother).2 (hblocks block hblock).1, int_lt, int_lt]
    exact hseparate

theorem merged_map {before after : List (ℤ × ℤ)} (hbefore : BlocksInWindow (Window start) before)
    (hafter : BlocksInWindow (Window start) after) (hhead : Window start head)
    (htail : Window start tail) (h : Merged head tail before after) :
    Merged (position s head) (position s tail) (mapBlocks (position s) before)
      (mapBlocks (position s) after) := by
  have e := agrees_position s start
  obtain ⟨first, rest, rfl, hrest, ⟨hle, hge⟩, hleft, hright⟩ := h
  obtain ⟨hfirst, hlast⟩ := hafter first mem_cons_self
  refine ⟨(position s first.1, position s first.2), mapBlocks (position s) rest, rfl, ?_, ?_, ?_, ?_⟩
  · intro block hblock
    obtain ⟨block', hblock', rfl⟩ := mem_map.mp hblock
    exact mem_map.mpr ⟨block', hrest block' hblock', rfl⟩
  · rw [e.le hfirst hhead, e.le htail hlast]
    exact ⟨hle, hge⟩
  · refine hleft.imp (fun ⟨heq, hno⟩ => ⟨congrArg (position s) heq, ?_⟩) fun ⟨block, hblock, htouch, heq⟩ =>
      ⟨_, mem_map.mpr ⟨block, hblock, rfl⟩, congrArg (position s) htouch, congrArg (position s) heq⟩
    intro block hblock
    obtain ⟨block', hblock', rfl⟩ := mem_map.mp hblock
    exact mt (e.inj (hbefore block' hblock').2 hhead).mp (hno block' hblock')
  · refine hright.imp (fun ⟨heq, hno⟩ => ⟨congrArg (position s) heq, ?_⟩) fun ⟨block, hblock, htouch, heq⟩ =>
      ⟨_, mem_map.mpr ⟨block, hblock, rfl⟩, congrArg (position s) htouch, congrArg (position s) heq⟩
    intro block hblock
    obtain ⟨block', hblock', rfl⟩ := mem_map.mp hblock
    exact mt (e.inj (hbefore block' hblock').1 htail).mp (hno block' hblock')

/-- A window that a segment is trimmed to starts at the next byte, or nothing is left. -/
theorem trimToWindow_spec (st : TcpRxBuffer ℤ β) (head tail : ℤ) :
    (st.trimToWindow head tail).2 ≤ tail ∧
      ((st.trimToWindow head tail).1 < (st.trimToWindow head tail).2 →
        st.nextRxSeq ≤ (st.trimToWindow head tail).1 ∧ head ≤ (st.trimToWindow head tail).1) := by
  have hhead : st.nextRxSeq ≤ (if head < st.nextRxSeq then st.nextRxSeq else head) ∧
      head ≤ (if head < st.nextRxSeq then st.nextRxSeq else head) := by
    split <;> omega
  unfold TcpRxBuffer.trimToWindow
  simp only [int_lt, int_add]
  generalize (if head < st.nextRxSeq then st.nextRxSeq else head) = head' at hhead ⊢
  cases st.data with
  | nil => exact ⟨le_rfl, fun _ => hhead⟩
  | cons packet rest =>
    dsimp only
    have htail : (if packet.1 + st.maxBuffer < tail then packet.1 + ↑st.maxBuffer else tail) ≤ tail := by
      split <;> omega
    generalize (if packet.1 + st.maxBuffer < tail then packet.1 + ↑st.maxBuffer else tail) = tail' at htail ⊢
    refine ⟨htail, fun hlt => ?_⟩
    split at hlt
    · exact absurd hlt (lt_irrefl _)
    · next hle =>
      rw [if_neg hle]
      exact hhead

/-- The half of the space on the line. -/
structure OnLine (s : SequenceNumber32) (st : TcpRxBuffer ℤ β) (low : ℤ)
    (segment : Segment SequenceNumber32 β) (start head : ℤ) : Prop where
  start_le : start ≤ low
  seq : segment.seq = position s head
  head : start ≤ head ∧ head + segment.payload.length < start + 2 ^ 31
  sound : Sound low (start + (2 ^ 31 - 1)) st
  max : ∀ packet ∈ st.data.head?, Window start (packet.1 + st.maxBuffer)

variable {segment : Segment SequenceNumber32 β}

theorem onLine_of_half (h : InOneHalf (st.map (position s) id) segment)
    (hst : Sound low (low + (2 ^ 31 - 1)) st) :
    ∃ start head, OnLine s st low segment start head := by
  obtain ⟨first, hsegment, hnext, hdata, hmax⟩ := h
  obtain ⟨start, hstart, hstart', rfl⟩ := exists_position s (st.nextRxSeq - 2 ^ 32 + 1) first
  have hhalf : ∀ x n, InHalf (position s start) (position s x) n ↔
      ((x - start) % 2 ^ 32).toNat + n < 2 ^ 31 := by
    intro x n
    unfold InHalf
    have hsub : (position s x - position s start).toNat = ((x - start) % 2 ^ 32).toNat :=
      position_sub s x start
    rw [hsub]
  rw [map_nextRxSeq, hhalf] at hnext
  have hlow := hst.low_le
  have hhigh := hst.le_high
  have hpkt : ∀ packet ∈ st.data, start ≤ packet.1 ∧
      packet.1 + packet.2.length < start + 2 ^ 31 := by
    intro packet hpkt
    have hin := hdata _ (mem_map.mpr ⟨packet, hpkt, rfl⟩)
    rw [hhalf, length_map] at hin
    have hbounds := hst.bounds packet hpkt
    have hpos := hst.ordered.nonempty packet hpkt
    omega
  -- the buffer starts with the next byte or a packet
  have hle : start ≤ low := by
    rcases hlow.eq_or_lt with heq | hlt
    · omega
    · obtain ⟨packet, hmem, hfirst, -⟩ := hst.holds low le_rfl hlt
      have := hpkt packet hmem
      omega
  refine ⟨start, start + (segment.seq - position s start).toNat, hle, ?_, ?_, ?_, fun packet hmem => ?_⟩
  · show segment.seq = position s _
    rw [← position_add]
    show segment.seq = position s start + BitVec.ofNat 32 _
    rw [SequenceNumber32.add_ofNat_toNat, SequenceNumber32.add_sub]
  · unfold InHalf at hsegment
    omega
  · refine hst.within (by omega) fun packet hmem => ?_
    have := hpkt packet hmem
    rw [finish_eq]
    omega
  · have hin := hmax (position s packet.1, packet.2.map id) (by
      rw [map_data, mapData, head?_map]
      exact Option.mem_map_of_mem _ hmem)
    rw [map_maxBuffer, hhalf] at hin
    have hfirst := hpkt packet (mem_of_mem_head? hmem)
    unfold Window
    omega

theorem OnLine.trimToWindow {start : ℤ} (h : OnLine s st low segment start head) :
    let window := st.trimToWindow head (head + segment.payload.length)
    (st.map (position s) id).trimToWindow segment.seq segment.tailSeq =
        (position s window.1, position s window.2) ∧
      Window start window.1 ∧ Window start window.2 := by
  have hlow := h.sound.low_le
  have hhigh := h.sound.le_high
  have hstart := h.start_le
  obtain ⟨hhead, htail⟩ := h.head
  unfold Segment.tailSeq
  rw [h.seq, position_add]
  have hnext : Window start st.nextRxSeq := ⟨by omega, by omega⟩
  exact ⟨trimToWindow_map (agrees_position s start) ⟨hhead, by omega⟩ ⟨by omega, htail⟩ hnext h.max,
    trimToWindow_window ⟨hhead, by omega⟩ ⟨by omega, htail⟩ hnext h.max⟩

theorem OnLine.keeps {start : ℤ} (h : OnLine s st low segment start head)
    (hcovers : ¬Covers (st.map (position s) id) segment) :
    let window := st.trimToWindow head (head + segment.payload.length)
    let trimmed := st.trimmed window.1 window.2
    trimmed.headSeq < trimmed.tailSeq → st.nextRxSeq < trimmed.headSeq → trimmed.data = st.data := by
  intro window trimmed hlt habove
  have e := agrees_position s start
  have hwindow := h.sound.inWindow h.start_le (by omega)
  obtain ⟨htrim, hwindow₁, hwindow₂⟩ := h.trimToWindow
  obtain ⟨-, hnext⟩ := trimToWindow_spec st head (head + segment.payload.length)
  have hspec : Removed window.1 window.2 st.size st.data trimmed :=
    removeOverlap_spec h.sound.ordered _ _ _
  have hhead := hspec.head_le
  have htail := hspec.tail_le
  obtain ⟨hnext, -⟩ := hnext (show window.1 < window.2 by omega)
  -- the next byte is missing, so that the head does not start there
  have hgt : st.nextRxSeq < window.1 := by
    refine lt_of_le_of_ne hnext fun heq => ?_
    exact h.sound.not_holds (hspec.passed _ heq.ge habove)
  have hordered : Ordered ([] ++ st.data) := h.sound.ordered
  refine removeOverlap_data hordered le_rfl le_rfl
    (fun _ hmem => absurd hmem not_mem_nil) fun packet hpkt hfinish x hle hbefore => ?_
  by_contra hmissing
  have hfirst := (hwindow packet hpkt).1
  have hlast := (hwindow packet hpkt).2 packet.2.length le_rfl
  have hx : Window start x := ⟨hwindow₁.1.trans hle, hbefore.trans hfirst.2⟩
  have hnextw : Window start st.nextRxSeq :=
    ⟨h.start_le.trans h.sound.low_le, h.sound.le_high.trans_lt (by omega)⟩
  refine hcovers ?_
  unfold Covers
  rw [htrim]
  refine ⟨?_, (position s packet.1, packet.2.map id), mem_map.mpr ⟨packet, hpkt, rfl⟩, ?_,
    position s x, ?_, ?_, ?_⟩
  · rw [map_nextRxSeq, e.gt hwindow₁ hnextw, int_gt]
    exact hgt
  · dsimp only
    rw [length_map, e.add, e.lt hlast hwindow₂, int_lt]
    exact hfinish
  · rw [e.le hwindow₁ hx, int_le]
    exact hle
  · rw [e.lt hx hfirst, int_lt]
    exact hbefore
  · rw [map_data, holdsByte_map hwindow hx]
    exact hmissing

theorem OnLine.stored {start : ℤ} (h : OnLine s st low segment start head) (hheld : SackHeld st) :
    let window := st.trimToWindow head (head + segment.payload.length)
    let line : Segment ℤ β := ⟨head, segment.payload, segment.bounded⟩
    Stored low (start + (2 ^ 31 - 1)) st line (st.trimmed window.1 window.2)
        (st.store line window.1 window.2).1 ∧
      ((st.map (position s) id).addSegment segment).1 =
        (st.store line window.1 window.2).1.map (position s) id := by
  intro window line
  obtain ⟨htrim, hwindow₁, hwindow₂⟩ := h.trimToWindow
  obtain ⟨htail, hnext⟩ := trimToWindow_spec st head (head + segment.payload.length)
  have hpayload : segment.payload = line.payload.map id := (map_id _).symm
  obtain ⟨hstored, hmap⟩ := hheld.stored h.sound h.start_le (by omega) hwindow₁ hwindow₂ hpayload
    h.seq fun hlt => ⟨(hnext hlt).1, (hnext hlt).2, htail,
      (Int.le_sub_one_of_lt hwindow₂.2).trans_eq (add_sub_assoc _ _ _)⟩
  exact ⟨hstored, by rw [← hmap, TcpRxBuffer.addSegment, htrim]⟩

theorem SackInv.addSegment (hinv : SackInv st) (hst : Sound low (low + (2 ^ 31 - 1)) st)
    (h : Orderly (st.map (position s) id) segment) :
    ∃ st', ((st.map (position s) id).addSegment segment).1 = st'.map (position s) id ∧
      Sound low (low + (2 ^ 31 - 1)) st' ∧ SackInv st' ∧
      ∀ head tail, StoresAbove (st.map (position s) id) segment head tail →
        Merged head tail (st.map (position s) id).sackList (st'.map (position s) id).sackList := by
  obtain ⟨start, head, hline⟩ := onLine_of_half h.half hst
  obtain ⟨htrim, hwindow₁, hwindow₂⟩ := hline.trimToWindow
  have hkeeps := hline.keeps h.not_covers
  obtain ⟨hstored, hadd⟩ := hline.stored hinv.held
  generalize st.trimToWindow head (head + segment.payload.length) = window
    at htrim hwindow₁ hwindow₂ hkeeps hstored hadd
  have hsound := hline.sound
  have hstart := hline.start_le
  have e := agrees_position s start
  have hspec : Removed window.1 window.2 st.size st.data (st.trimmed window.1 window.2) :=
    removeOverlap_spec hsound.ordered _ _ _
  have hsack := hinv.held.inWindow hsound hstart (by omega)
  obtain ⟨hinv', hmerged⟩ := hinv.store hsound hspec hstored hkeeps
  refine ⟨_, hadd, hstored.sound.mono (by omega), hinv', ?_⟩
  have htrimmed : (st.map (position s) id).trimmed (position s window.1) (position s window.2) =
      (st.trimmed window.1 window.2).map (position s) id :=
    removeOverlap_map e hwindow₁ hwindow₂ (hsound.inWindow hstart (by omega))
  obtain ⟨hhead', htail', -⟩ : Window start (st.trimmed window.1 window.2).headSeq ∧
      Window start (st.trimmed window.1 window.2).tailSeq ∧ _ :=
    removeOverlap_window hwindow₁ hwindow₂ (hsound.inWindow hstart (by omega)) st.size
  have hnext' : Window start st.nextRxSeq := by
    have hlow := hsound.low_le
    have hhigh := hsound.le_high
    exact ⟨by omega, by omega⟩
  rintro head' tail' ⟨rfl, rfl, hge, hgt⟩
  rw [htrim, htrimmed] at hge hgt ⊢
  dsimp only [Trimmed.map] at hge hgt ⊢
  rw [e.ge hhead' htail', ← Bool.not_eq_true, int_ge, not_le] at hge
  rw [map_nextRxSeq, e.gt hhead' hnext', int_gt] at hgt
  exact merged_map hsack (hinv'.held.inWindow hstored.sound hstart (by omega)) hhead' htail'
    (hmerged hge hgt)

theorem SackInv.extract (hinv : SackInv st) {low' : ℤ} (hextracted : Extracted low high st st' low') :
    SackInv st' :=
  ⟨hinv.held.extract hextracted, hextracted.sack ▸ hinv.length_le, hextracted.sack ▸ hinv.apart⟩

end

/-! ## 5. Runs -/

section

variable {β : Type} {st : TcpRxBuffer SequenceNumber32 β}

/-- A buffer on the line that is sound, with its SACK list. -/
def OnLineBuffer (st : TcpRxBuffer SequenceNumber32 β) : Prop :=
  ∃ (s : SequenceNumber32) (low : ℤ) (line : TcpRxBuffer ℤ β), st = line.map (position s) id ∧
    Sound low (low + (2 ^ 31 - 1)) line ∧ SackInv line

theorem Reached.onLine {maxBuffer : Nat} (h : Reached Orderly maxBuffer st) : OnLineBuffer st := by
  induction h with
  | start nextRxSeq finSeq =>
    obtain ⟨fin, -, -, rfl⟩ := exists_position nextRxSeq 0 finSeq
    refine ⟨nextRxSeq, 0, { nextRxSeq := 0, finSeq := fin, maxBuffer := maxBuffer }, ?_,
      Sound.start fin maxBuffer (by decide), fun _ h => absurd h not_mem_nil, Nat.zero_le 4,
      List.Pairwise.nil⟩
    unfold TcpRxBuffer.map
    rw [position_zero]
    rfl
  | add segment _ harrives ih =>
    obtain ⟨s, low, line, rfl, hsound, hinv⟩ := ih
    obtain ⟨line', heq, hsound', hinv', -⟩ := hinv.addSegment hsound harrives
    exact ⟨s, low, line', heq, hsound', hinv'⟩
  | extract maxSize _ ih =>
    obtain ⟨s, low, line, rfl, hsound, hinv⟩ := ih
    have hextracted := extract_spec hsound (by omega) maxSize
    have hlow := hextracted.low_le
    refine ⟨s, _, _, ?_, hextracted.sound.mono (by omega), hinv.extract hextracted⟩
    rw [extract_map hsound (by omega)]

/-- As long as no segment above the next byte covers a packet with missing bytes in front of it, the
SACK list is truthful, and its first block is the last segment above the next byte with all that
touches it. -/
theorem sackList_truthful {maxBuffer : Nat} (h : Reached Orderly maxBuffer st) :
    Truthful st ∧ ∀ segment, Orderly st segment → ∀ head tail, StoresAbove st segment head tail →
      Merged head tail st.sackList (st.addSegment segment).1.sackList := by
  obtain ⟨s, low, line, rfl, hsound, hinv⟩ := h.onLine
  refine ⟨truthful_map hinv hsound (by omega), fun segment hsegment => ?_⟩
  obtain ⟨line', heq, -, -, hmerged⟩ := hinv.addSegment hsound hsegment
  rw [heq]
  exact hmerged

end

/-- A segment cut from the stream whose byte `n` is `n`. -/
def cut (first length : Nat) (h : length < 2 ^ 32) : Segment SequenceNumber32 (BitVec 8) where
  seq := ⟨BitVec.ofNat 32 first⟩
  payload := (List.range' first length).map (BitVec.ofNat 8)
  bounded := by rwa [List.length_map, List.length_range']

/-- Bytes 10 to 20 arrive first. -/
theorem sackList_truthful_gap :
    let st : TcpRxBuffer SequenceNumber32 (BitVec 8) :=
      { nextRxSeq := ⟨0#32⟩, finSeq := ⟨0#32⟩, maxBuffer := 100 }
    let st' := (st.addSegment (cut 10 10 (by decide))).1
    Truthful st' ∧ ∀ segment, Orderly st' segment → ∀ head tail, StoresAbove st' segment head tail →
      Merged head tail st'.sackList (st'.addSegment segment).1.sackList := by
  have horderly : Orderly ({ nextRxSeq := ⟨0#32⟩, finSeq := ⟨0#32⟩, maxBuffer := 100 } :
      TcpRxBuffer SequenceNumber32 (BitVec 8)) (cut 10 10 (by decide)) :=
    { half := ⟨⟨0#32⟩, by unfold InHalf; decide, by unfold InHalf; decide,
        fun _ h => absurd h List.not_mem_nil, fun _ h => by cases h⟩
      not_covers := fun ⟨_, _, h, _⟩ => absurd h List.not_mem_nil }
  exact sackList_truthful (Reached.add _ (Reached.start _ _) horderly)

/-- After bytes 10 to 20 come bytes 5 to 25: their block is put beside that of the packet that they
cover. -/
theorem sackList_untruthful :
    ¬∀ st : TcpRxBuffer SequenceNumber32 (BitVec 8),
      Reached (fun _ segment => ∃ first length h, segment = cut first length h) 100 st →
      Truthful st := by
  intro h
  have hempty : Reached (β := BitVec 8) (fun _ segment => ∃ first length h, segment = cut first length h)
      100 { nextRxSeq := ⟨0#32⟩, finSeq := ⟨0#32⟩, maxBuffer := 100 } := Reached.start _ _
  have hst := h _ (Reached.add (cut 5 20 (by decide)) (Reached.add (cut 10 10 (by decide)) hempty
    ⟨10, 10, by decide, rfl⟩) ⟨5, 20, by decide, rfl⟩)
  exact absurd hst.apart (by decide)

end MoeJit.Tcp
