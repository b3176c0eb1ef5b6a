import MoeJit.Internet.TcpRxPositions

/-!
# The receive buffer on a line

What the loops of the buffer do when sequence numbers are positions. The packets lie in order and
apart; a segment is cut down to bytes that no packet has, and packets that are between those are
given up for it.

`Sound` is kept by every segment that is put in and every read: the packets that wait for the
application reach from some position to `nextRxSeq` without a gap, and the byte there is missing.
-/

namespace MoeJit.Tcp

open SequenceNumber List
open Words (u32 sub32 u32_of_lt sub32_of_le)

variable {β : Type}

/-! ## 1. Packets in order -/

/-- The position after the last byte of a packet. -/
def finish (packet : ℤ × List β) : ℤ := packet.1 + packet.2.length

/-- The byte at a position is in a packet. -/
def Holds (data : List (ℤ × List β)) (x : ℤ) : Prop :=
  ∃ packet ∈ data, packet.1 ≤ x ∧ x < finish packet

/-- Packets that are not empty, in order and apart. -/
structure Ordered (data : List (ℤ × List β)) : Prop where
  nonempty : ∀ packet ∈ data, packet.1 < finish packet
  apart : data.Pairwise fun packet other => finish packet ≤ other.1

def total (data : List (ℤ × List β)) : Nat := (data.map fun packet => packet.2.length).sum

@[simp] theorem total_cons (packet : ℤ × List β) (data : List (ℤ × List β)) :
    total (packet :: data) = packet.2.length + total data := rfl

theorem finish_eq (packet : ℤ × List β) : finish packet = packet.1 + packet.2.length := rfl

variable {packet : ℤ × List β} {data : List (ℤ × List β)} {x : ℤ}

theorem holds_cons :
    Holds (packet :: data) x ↔ (packet.1 ≤ x ∧ x < finish packet) ∨ Holds data x := by
  unfold Holds
  rw [exists_mem_cons_iff]

theorem Holds.mono {data' : List (ℤ × List β)} (h : ∀ packet ∈ data, packet ∈ data')
    (hx : Holds data x) : Holds data' x := by
  obtain ⟨packet, hpkt, hin⟩ := hx
  exact ⟨packet, h packet hpkt, hin⟩

namespace Ordered

variable {packet : ℤ × List β} {data rest : List (ℤ × List β)}

theorem head (h : Ordered (packet :: rest)) : packet.1 < finish packet :=
  h.nonempty packet mem_cons_self

theorem tail (h : Ordered (packet :: rest)) : Ordered rest :=
  ⟨fun other hother => h.nonempty other (mem_cons_of_mem packet hother),
    (pairwise_cons.mp h.apart).2⟩

theorem finish_le (h : Ordered (packet :: rest)) : ∀ other ∈ rest, finish packet ≤ other.1 :=
  (pairwise_cons.mp h.apart).1

theorem cons (hrest : Ordered rest) (hpos : packet.1 < finish packet)
    (hle : ∀ other ∈ rest, finish packet ≤ other.1) : Ordered (packet :: rest) :=
  ⟨forall_mem_cons.mpr ⟨hpos, hrest.nonempty⟩, pairwise_cons.mpr ⟨hle, hrest.apart⟩⟩

theorem sublist (h : Ordered data) (hsub : rest.Sublist data) : Ordered rest :=
  ⟨fun packet hpkt => h.nonempty packet (hsub.subset hpkt), h.apart.sublist hsub⟩

/-- Packets between two positions have at most as many bytes as there are positions. -/
theorem total_le {low high : ℤ} (h : Ordered data) (hlow : ∀ packet ∈ data, low ≤ packet.1)
    (hhigh : ∀ packet ∈ data, finish packet ≤ high) (hle : low ≤ high) :
    total data ≤ high - low := by
  induction data generalizing low with
  | nil =>
    show (0 : ℤ) ≤ high - low
    omega
  | cons packet rest ih =>
    have hrest := ih h.tail h.finish_le (fun other hother =>
      hhigh other (mem_cons_of_mem packet hother)) (hhigh packet mem_cons_self)
    have hfirst := hlow packet mem_cons_self
    rw [total_cons, Nat.cast_add]
    rw [finish_eq] at hrest
    omega

end Ordered

/-! ## 2. The overlap -/

/-- What one packet does to the segment, for packets that follow it in order. -/
theorem removeOverlap_cases {rest : List (ℤ × List β)} (head tail : ℤ) (size : Nat)
    (h : Ordered (packet :: rest)) :
    (tail < packet.1 ∧
      removeOverlap head tail size (packet :: rest) = ⟨head, tail, size, packet :: rest⟩) ∨
    (finish packet ≤ head ∧ removeOverlap head tail size (packet :: rest) =
      { removeOverlap head tail size rest with
        data := packet :: (removeOverlap head tail size rest).data }) ∨
    (head < packet.1 ∧ finish packet < tail ∧ removeOverlap head tail size (packet :: rest) =
      removeOverlap head tail (sub32 size packet.2.length) rest) ∨
    (packet.1 ≤ tail ∧ head < finish packet ∧ tail ≤ finish packet ∧
      removeOverlap head tail size (packet :: rest) =
        ⟨if packet.1 ≤ head then finish packet else head, packet.1, size, packet :: rest⟩) ∨
    (packet.1 ≤ head ∧ head < finish packet ∧ finish packet < tail ∧
      removeOverlap head tail size (packet :: rest) =
        { removeOverlap (finish packet) tail size rest with
          data := packet :: (removeOverlap (finish packet) tail size rest).data }) := by
  -- past the end of the segment nothing changes
  have hstop : ∀ head tail : ℤ, (∀ other ∈ rest, tail < other.1) →
      removeOverlap head tail size rest = ⟨head, tail, size, rest⟩ := by
    intro head tail hlt
    cases rest with
    | nil => rfl
    | cons other rest =>
      rw [removeOverlap, if_neg (by rw [int_le, not_le]; exact hlt other mem_cons_self)]
  have hpos := h.head
  have hadd : add packet.1 packet.2.length = finish packet := rfl
  rw [removeOverlap]
  simp only [int_le, int_gt, int_ge, hadd, Bool.and_eq_true, int_lt]
  by_cases htail : packet.1 ≤ tail
  · rw [if_pos htail]
    by_cases hhead : head < finish packet
    · rw [if_pos hhead]
      by_cases hin : head < packet.1 ∧ finish packet < tail
      · rw [if_pos hin]
        exact .inr (.inr (.inl ⟨hin.1, hin.2, rfl⟩))
      · rw [if_neg hin]
        by_cases hlast : tail ≤ finish packet
        · rw [if_pos hlast, hstop _ packet.1 fun other hother => hpos.trans_le (h.finish_le other hother)]
          exact .inr (.inr (.inr (.inl ⟨htail, hhead, hlast, rfl⟩)))
        · have hfirst : packet.1 ≤ head := not_lt.mp fun hlt => hin ⟨hlt, not_le.mp hlast⟩
          rw [if_neg hlast, if_pos hfirst]
          exact .inr (.inr (.inr (.inr ⟨hfirst, hhead, not_le.mp hlast, rfl⟩)))
    · rw [if_neg hhead]
      exact .inr (.inl ⟨not_lt.mp hhead, rfl⟩)
  · rw [if_neg htail]
    exact .inl ⟨not_le.mp htail, rfl⟩

/-- A segment that ends before all packets, or starts after what is in front of it, keeps its end. -/
theorem removeOverlap_bounds (hdata : Ordered data) (head tail : ℤ) (size : Nat)
    (hx : ∀ packet ∈ data, x ≤ packet.1) :
    (head < x → (removeOverlap head tail size data).headSeq = head) ∧
      (x ≤ tail → x ≤ (removeOverlap head tail size data).tailSeq) := by
  induction data generalizing head size with
  | nil => exact ⟨fun _ => rfl, fun h => h⟩
  | cons packet rest ih =>
    have hpkt := hx packet mem_cons_self
    have hrest : ∀ other ∈ rest, x ≤ other.1 := fun other hother =>
      hx other (mem_cons_of_mem packet hother)
    have hpos := hdata.head
    rcases removeOverlap_cases head tail size hdata with ⟨-, heq⟩ | ⟨hle, heq⟩ | ⟨-, -, heq⟩ |
      ⟨-, -, -, heq⟩ | ⟨hle, -, -, heq⟩
    · rw [heq]
      exact ⟨fun _ => rfl, fun h => h⟩
    · rw [heq]
      exact ih hdata.tail _ _ hrest
    · rw [heq]
      exact ih hdata.tail _ _ hrest
    · rw [heq]
      exact ⟨fun h => if_neg (by omega), fun _ => hpkt⟩
    · rw [heq]
      exact ⟨fun h => by omega, (ih hdata.tail _ _ hrest).2⟩

/-- What the loop leaves of the segment from `head` to `tail` and of the packets. -/
structure Removed (head tail : ℤ) (size : Nat) (data : List (ℤ × List β)) (trimmed : Trimmed ℤ β) :
    Prop where
  sublist : trimmed.data.Sublist data
  head_le : head ≤ trimmed.headSeq
  tail_le : trimmed.tailSeq ≤ tail
  apart : ∀ packet ∈ trimmed.data, finish packet ≤ trimmed.headSeq ∨ trimmed.tailSeq ≤ packet.1
  given_up : ∀ packet ∈ data, packet ∉ trimmed.data →
    trimmed.headSeq < packet.1 ∧ finish packet ≤ trimmed.tailSeq
  passed : ∀ x, head ≤ x → x < trimmed.headSeq → Holds data x
  size : total data ≤ size → size < 2 ^ 32 → trimmed.size + total data = size + total trimmed.data

theorem Removed.cons {packet : ℤ × List β} {data : List (ℤ × List β)} {head head' tail : ℤ}
    {size : Nat} {trimmed : Trimmed ℤ β} (h : Removed head' tail size data trimmed)
    (hhead : head ≤ head') (hfinish : finish packet ≤ head')
    (hpassed : ∀ x, head ≤ x → x < head' → packet.1 ≤ x ∧ x < finish packet) :
    Removed head tail size (packet :: data) { trimmed with data := packet :: trimmed.data } where
  sublist := h.sublist.cons_cons packet
  head_le := hhead.trans h.head_le
  tail_le := h.tail_le
  apart := forall_mem_cons.mpr ⟨.inl (hfinish.trans h.head_le), h.apart⟩
  given_up := forall_mem_cons.mpr ⟨fun hnot => absurd mem_cons_self hnot,
    fun other hother hnot => h.given_up other hother fun hmem =>
      hnot (mem_cons_of_mem packet hmem)⟩
  passed x hle hlt := holds_cons.mpr <| (lt_or_ge x head').imp (hpassed x hle) fun hge =>
    h.passed x hge hlt
  size hle hlt := by
    rw [total_cons] at hle
    have hsize := h.size ((Nat.le_add_left _ _).trans hle) hlt
    show trimmed.size + _ = _
    rw [total_cons, total_cons]
    omega

theorem removeOverlap_spec (hdata : Ordered data) (head tail : ℤ) (size : Nat) :
    Removed head tail size data (removeOverlap head tail size data) := by
  induction data generalizing head size with
  | nil =>
    exact ⟨List.Sublist.refl _, le_rfl, le_rfl, fun _ h => absurd h not_mem_nil,
      fun _ h => absurd h not_mem_nil, fun x hle hlt => absurd hlt (not_lt.mpr hle),
      fun _ _ => rfl⟩
  | cons packet rest ih =>
    have hpos := hdata.head
    have hfinish := hdata.finish_le
    rcases removeOverlap_cases head tail size hdata with ⟨hlt, heq⟩ | ⟨hle, heq⟩ |
      ⟨hhead, htail, heq⟩ | ⟨htail, hhead, hlast, heq⟩ | ⟨hfirst, hhead, -, heq⟩
    · rw [heq]
      exact ⟨List.Sublist.refl _, le_rfl, le_rfl,
        forall_mem_cons.mpr ⟨.inr hlt.le, fun other hother => .inr (by
          have := hfinish other hother
          show tail ≤ other.1
          omega)⟩,
        fun _ hmem hnot => absurd hmem hnot, fun x hle hlt => absurd hlt (not_lt.mpr hle),
        fun _ _ => rfl⟩
    · rw [heq]
      exact (ih hdata.tail head size).cons le_rfl hle fun x hle hlt => absurd hlt (not_lt.mpr hle)
    · -- the packet is between the bytes of the segment, and what follows it leaves these alone
      rw [heq]
      have hrest := ih hdata.tail head (sub32 size packet.2.length)
      have hbounds := removeOverlap_bounds hdata.tail head tail (sub32 size packet.2.length) hfinish
      refine ⟨hrest.sublist.cons packet, hrest.head_le, hrest.tail_le, hrest.apart,
        forall_mem_cons.mpr ⟨fun _ => ?_, hrest.given_up⟩,
        fun x hle hlt => holds_cons.mpr (.inr (hrest.passed x hle hlt)), fun hle hlt => ?_⟩
      · rw [hbounds.1 (hhead.trans hpos)]
        exact ⟨hhead, hbounds.2 htail.le⟩
      · rw [total_cons] at hle
        have hsub := sub32_of_le ((Nat.le_add_right _ _).trans hle) hlt
        rw [hsub] at hrest ⊢
        have hsize := hrest.size (by omega) (by omega)
        rw [total_cons]
        omega
    · rw [heq]
      refine ⟨List.Sublist.refl _, ?_, htail, forall_mem_cons.mpr ⟨.inr le_rfl, fun other hother =>
        .inr (hpos.le.trans (hfinish other hother))⟩, fun _ hmem hnot => absurd hmem hnot,
        fun x hle hlt => ?_, fun _ _ => rfl⟩
      · dsimp only
        split
        · exact hhead.le
        · exact le_rfl
      · dsimp only at hlt
        split at hlt
        · next hfirst => exact holds_cons.mpr (.inl ⟨hfirst.trans hle, hlt⟩)
        · exact absurd hlt (not_lt.mpr hle)
    · rw [heq]
      exact (ih hdata.tail (finish packet) size).cons hhead.le le_rfl fun x hle hlt =>
        ⟨hfirst.trans hle, hlt⟩

/-- No packet is given up if none that ends before the segment has a missing byte of it in front. -/
theorem removeOverlap_data {first last : ℤ} {before : List (ℤ × List β)}
    (hdata : Ordered (before ++ data)) {head tail : ℤ} {size : Nat} (hhead : first ≤ head)
    (htail : tail ≤ last) (hbefore : ∀ packet ∈ before, finish packet ≤ head)
    (hno : ∀ packet ∈ before ++ data, finish packet < last →
      ∀ x, first ≤ x → x < packet.1 → Holds (before ++ data) x) :
    (removeOverlap head tail size data).data = data := by
  induction data generalizing before head size with
  | nil => rfl
  | cons packet rest ih =>
    have hpkt : Ordered (packet :: rest) := hdata.sublist (sublist_append_right _ _)
    have hsplit : before ++ packet :: rest = (before ++ [packet]) ++ rest := append_cons _ _ _
    have hrest := hsplit ▸ hdata
    have hno' := hsplit ▸ hno
    have hstep : ∀ {head'}, first ≤ head' → head ≤ head' → finish packet ≤ head' →
        (removeOverlap head' tail size rest).data = rest := fun hfirst hle hfinish =>
      ih hrest hfirst (forall_mem_append.mpr ⟨fun other hother =>
        (hbefore other hother).trans hle, forall_mem_singleton.mpr hfinish⟩) hno'
    rcases removeOverlap_cases head tail size hpkt with ⟨-, heq⟩ | ⟨hle, heq⟩ |
      ⟨hlt, hin, heq⟩ | ⟨-, -, -, heq⟩ | ⟨-, hlt, -, heq⟩
    · rw [heq]
    · rw [heq, hstep hhead le_rfl hle]
    · -- the byte at the head is missing
      obtain ⟨other, hother, hle, hother'⟩ := hno packet
        (mem_append_right before mem_cons_self) (hin.trans_le htail) head hhead hlt
      rcases mem_append.mp hother with hmem | hmem
      · exact absurd hother' (not_lt.mpr (hbefore other hmem))
      · rcases mem_cons.mp hmem with rfl | hmem
        · exact absurd hle (not_le.mpr hlt)
        · have hafter := hpkt.finish_le other hmem
          have hpos := hpkt.head
          omega
    · rw [heq]
    · rw [heq, hstep (hhead.trans hlt.le) hlt.le le_rfl]

/-! ## 3. A new packet -/

section

variable {seq : ℤ} {p : List β} {data : List (ℤ × List β)}

/-- The packet is put in its place. -/
structure Inserted (seq : ℤ) (p : List β) (data data' : List (ℤ × List β)) : Prop where
  mem : ∀ packet, packet ∈ data' ↔ packet = (seq, p) ∨ packet ∈ data
  ordered : Ordered data'
  total : total data' = p.length + total data

theorem insertPacket_spec (hdata : Ordered data) (hpos : 0 < p.length)
    (hapart : ∀ packet ∈ data, finish packet ≤ seq ∨ seq + p.length ≤ packet.1) :
    Inserted seq p data (insertPacket seq p data) := by
  have hnew : (seq, p).1 < finish (seq, p) := by
    rw [finish_eq]
    dsimp only
    omega
  induction data with
  | nil =>
    exact ⟨fun _ => mem_cons, hdata.cons hnew fun _ h => absurd h not_mem_nil, rfl⟩
  | cons first rest ih =>
    obtain ⟨hfirst, hrest⟩ := forall_mem_cons.mp hapart
    have hpos' := hdata.head
    rw [insertPacket]
    simp only [int_lt]
    by_cases hlt : seq < first.1
    · rw [if_pos hlt]
      have hle : seq + p.length ≤ first.1 := hfirst.resolve_left fun h => by omega
      refine ⟨fun _ => mem_cons, hdata.cons hnew (forall_mem_cons.mpr
        ⟨hle, fun other hother => ?_⟩), rfl⟩
      have hother' := hdata.finish_le other hother
      show seq + p.length ≤ other.1
      omega
    · have hgt : first.1 < seq := by
        rcases hfirst with h | h
        · omega
        · omega
      have hle : finish first ≤ seq := hfirst.resolve_right fun h => by omega
      rw [if_neg hlt, if_pos hgt]
      obtain ⟨hmem, hordered, htotal⟩ := ih hdata.tail hrest
      refine ⟨fun packet => ?_, hordered.cons hpos' fun packet hpkt => ?_, ?_⟩
      · rw [mem_cons, hmem, mem_cons, or_left_comm]
      · rcases (hmem packet).mp hpkt with rfl | hpkt
        · exact hle
        · exact hdata.finish_le packet hpkt
      · rw [total_cons, htotal, total_cons, Nat.add_left_comm]

end

/-! ## 4. The next byte -/

/-- Where the loop that moves on comes to. -/
structure Advanced (nextRxSeq : ℤ) (availBytes : Nat) (sackList : List (ℤ × ℤ))
    (data : List (ℤ × List β)) (next : ℤ × Nat × List (ℤ × ℤ)) : Prop where
  le : nextRxSeq ≤ next.1
  holds : ∀ x, nextRxSeq ≤ x → x < next.1 → Holds data x
  missing : ∀ packet ∈ data, finish packet ≤ next.1 ∨ next.1 < packet.1
  avail : availBytes + (next.1 - nextRxSeq).toNat < 2 ^ 32 →
    next.2.1 = availBytes + (next.1 - nextRxSeq).toNat
  sack : next.2.2 = if next.1 = nextRxSeq then sackList else clearSackList next.1 sackList

theorem clearSackList_clear {y : ℤ} (hle : x ≤ y) (sackList : List (ℤ × ℤ)) :
    clearSackList y (clearSackList x sackList) = clearSackList y sackList := by
  unfold clearSackList
  rw [filter_filter]
  refine filter_congr fun block _ => ?_
  rw [Bool.eq_iff_iff, Bool.and_eq_true, Bool.not_eq_true', Bool.not_eq_true', ← Bool.not_eq_true,
    ← Bool.not_eq_true, int_le, int_le]
  omega

theorem advance_spec (hdata : Ordered data) (nextRxSeq : ℤ) (availBytes : Nat)
    (sackList : List (ℤ × ℤ))
    (hpast : ∀ packet ∈ data, packet.1 < nextRxSeq → finish packet ≤ nextRxSeq) :
    Advanced nextRxSeq availBytes sackList data (advance nextRxSeq availBytes sackList data) := by
  induction data generalizing nextRxSeq availBytes sackList with
  | nil =>
    refine ⟨le_rfl, fun x hle hlt => absurd hlt (not_lt.mpr hle), fun _ h => absurd h not_mem_nil,
      fun _ => ?_, (if_pos rfl).symm⟩
    show availBytes = availBytes + (nextRxSeq - nextRxSeq).toNat
    rw [sub_self]
    rfl
  | cons packet rest ih =>
    obtain ⟨hfirst, hrest⟩ := forall_mem_cons.mp hpast
    have hpos := hdata.head
    have hadd : add packet.1 packet.2.length = finish packet := rfl
    rw [advance]
    simp only [int_lt, int_gt, hadd]
    by_cases hlt : packet.1 < nextRxSeq
    · rw [if_pos hlt]
      obtain ⟨hle, hholds, hmissing, havail, hsack⟩ := ih hdata.tail nextRxSeq availBytes sackList hrest
      exact ⟨hle, fun x h₁ h₂ => holds_cons.mpr (.inr (hholds x h₁ h₂)),
        forall_mem_cons.mpr ⟨.inl ((hfirst hlt).trans hle), hmissing⟩, havail, hsack⟩
    · rw [if_neg hlt]
      by_cases hgt : nextRxSeq < packet.1
      · rw [if_pos hgt]
        refine ⟨le_rfl, fun x hle hlt => absurd hlt (not_lt.mpr hle), forall_mem_cons.mpr
          ⟨.inr hgt, fun other hother => .inr (hgt.trans (hpos.trans_le
            (hdata.finish_le other hother)))⟩, fun _ => ?_, (if_pos rfl).symm⟩
        rw [sub_self]
        rfl
      · -- the packet with the next byte
        have heq : packet.1 = nextRxSeq := le_antisymm (not_lt.mp hgt) (not_lt.mp hlt)
        rw [if_neg hgt]
        have hfinish := finish_eq packet
        have hspec := ih hdata.tail (finish packet) (u32 (availBytes + packet.2.length))
          (clearSackList (finish packet) sackList) fun other hother h =>
            absurd h (not_lt.mpr (hdata.finish_le other hother))
        generalize advance (finish packet) (u32 (availBytes + packet.2.length))
          (clearSackList (finish packet) sackList) rest = next at hspec ⊢
        obtain ⟨hle, hholds, hmissing, havail, hsack⟩ := hspec
        refine ⟨by omega, fun x h₁ h₂ => holds_cons.mpr ?_, forall_mem_cons.mpr
          ⟨.inl hle, hmissing⟩, fun hbound => ?_, ?_⟩
        · rcases lt_or_ge x (finish packet) with h | h
          · exact .inl ⟨by omega, h⟩
          · exact .inr (hholds x h h₂)
        · have hu32 : u32 (availBytes + packet.2.length) = availBytes + packet.2.length :=
            u32_of_lt (by omega)
          rw [hu32] at havail
          rw [havail (by omega)]
          omega
        · rw [hsack, if_neg (show ¬next.1 = nextRxSeq by omega)]
          split
          · next hsame => rw [hsame]
          · exact clearSackList_clear hle sackList

/-! ## 5. A read -/

/-- What is left when the first bytes of packets without a gap are taken. -/
structure Taken (low : ℤ) (extractSize : Nat) (data : List (ℤ × List β))
    (taken : List β × List (ℤ × List β)) : Prop where
  length : taken.1.length = extractSize
  ordered : Ordered taken.2
  total : total taken.2 + extractSize = total data
  holds : ∀ x, Holds taken.2 x ↔ Holds data x ∧ low + extractSize ≤ x
  part : ∀ packet ∈ taken.2, ∃ other ∈ data, ∃ n < other.2.length,
    packet = (other.1 + n, other.2.drop n)

theorem takeFront_part {rest : List (ℤ × List β)} {extractSize : Nat}
    (hdata : Ordered (packet :: rest)) (hpos : 0 < extractSize)
    (hlt : extractSize < packet.2.length) :
    takeFront extractSize (packet :: rest) = (packet.2.take extractSize,
      (packet.1 + extractSize, packet.2.drop extractSize) :: rest) := by
  have hfinish := hdata.finish_le
  have hinsert : insertPacket (packet.1 + extractSize) (packet.2.drop extractSize) (packet :: rest) =
      packet :: (packet.1 + extractSize, packet.2.drop extractSize) :: rest := by
    rw [insertPacket, if_neg (by rw [int_lt]; omega), if_pos (by rw [int_lt]; omega)]
    refine congrArg (packet :: ·) ?_
    cases rest with
    | nil => rfl
    | cons other rest =>
      have hother := hfinish other mem_cons_self
      rw [finish_eq] at hother
      rw [insertPacket, if_pos (by rw [int_lt]; omega)]
  rw [takeFront, if_neg hpos.ne', if_neg (not_le.mpr hlt), int_add, hinsert]
  refine Prod.ext rfl ?_
  have hrest : ∀ other ∈ (packet.1 + extractSize, packet.2.drop extractSize) :: rest,
      decide (other.1 ≠ packet.1) = true := by
    refine forall_mem_cons.mpr ⟨decide_eq_true (by dsimp only; omega), fun other hother => ?_⟩
    have hother := hfinish other hother
    rw [finish_eq] at hother
    exact decide_eq_true (by omega)
  dsimp only
  rw [filter_cons_of_neg (by simp), filter_eq_self.mpr hrest]

theorem takeFront_spec (hdata : Ordered data) (low : ℤ) (extractSize : Nat)
    (hlow : ∀ packet ∈ data, low ≤ packet.1)
    (hholds : ∀ x, low ≤ x → x < low + extractSize → Holds data x) :
    Taken low extractSize data (takeFront extractSize data) := by
  induction data generalizing low extractSize with
  | nil =>
    have hzero : extractSize = 0 := by
      by_contra hne
      obtain ⟨packet, hpkt, -⟩ := hholds low le_rfl (by omega)
      exact absurd hpkt not_mem_nil
    subst hzero
    exact ⟨rfl, hdata, rfl, fun x => ⟨fun ⟨_, h, _⟩ => absurd h not_mem_nil,
      fun ⟨⟨_, h, _⟩, _⟩ => absurd h not_mem_nil⟩, fun _ h => absurd h not_mem_nil⟩
  | cons packet rest ih =>
    have hpos := hdata.head
    have hfinish := finish_eq packet
    have hpart : ∀ other ∈ packet :: rest, ∃ other' ∈ packet :: rest, ∃ n < other'.2.length,
        other = (other'.1 + n, other'.2.drop n) := fun other hother => by
      have hother' := hdata.nonempty other hother
      rw [finish_eq] at hother'
      exact ⟨other, hother, 0, by omega, by rw [Nat.cast_zero, add_zero, drop_zero]⟩
    rcases Nat.eq_zero_or_pos extractSize with rfl | hextract
    · rw [takeFront, if_pos rfl]
      refine ⟨rfl, hdata, rfl, fun x => ⟨fun h => ⟨h, ?_⟩, fun h => h.1⟩, hpart⟩
      obtain ⟨other, hother, hle, -⟩ := h
      have := hlow other hother
      show low + 0 ≤ x
      omega
    · -- the first packet starts at `low`
      have hfirst : packet.1 = low := by
        obtain ⟨other, hother, hle, -⟩ := hholds low le_rfl (by omega)
        have hpkt := hlow packet mem_cons_self
        rcases mem_cons.mp hother with rfl | hmem
        · omega
        · have := hdata.finish_le other hmem
          omega
      by_cases hle : packet.2.length ≤ extractSize
      · have hspec := ih hdata.tail (finish packet) (extractSize - packet.2.length) hdata.finish_le
          fun x h₁ h₂ => ?_
        · rw [takeFront, if_neg hextract.ne', if_pos hle]
          obtain ⟨hlen, hordered, htotal, hholds', hpart'⟩ := hspec
          refine ⟨?_, hordered, ?_, fun x => ?_, fun other hother => ?_⟩
          · rw [length_append, hlen]
            omega
          · dsimp only
            rw [total_cons]
            omega
          · rw [hholds', holds_cons]
            have hbound : finish packet + (extractSize - packet.2.length : Nat) = low + extractSize := by
              omega
            rw [hbound]
            refine and_congr_left fun hx => (or_iff_right fun h => ?_).symm
            omega
          · obtain ⟨other', hother', hn⟩ := hpart' other hother
            exact ⟨other', mem_cons_of_mem packet hother', hn⟩
        · exact (holds_cons.mp (hholds x (by omega) (by omega))).resolve_left fun h => by omega
      · rw [takeFront_part hdata hextract (not_le.mp hle)]
        have hlen : (packet.2.drop extractSize).length = packet.2.length - extractSize :=
          length_drop
        have hend : finish (packet.1 + extractSize, packet.2.drop extractSize) = finish packet := by
          rw [finish_eq, finish_eq]
          dsimp only
          omega
        refine ⟨?_, hdata.tail.cons ?_ fun other hother => ?_, ?_, fun x => ?_, ?_⟩
        · rw [length_take]
          omega
        · rw [hend]
          dsimp only
          omega
        · rw [hend]
          exact hdata.finish_le other hother
        · rw [total_cons, total_cons, hlen]
          omega
        · rw [holds_cons, holds_cons, hend]
          dsimp only
          constructor
          · rintro (⟨h₁, h₂⟩ | h)
            · exact ⟨.inl ⟨by omega, h₂⟩, by omega⟩
            · obtain ⟨other, hother, h₁, -⟩ := id h
              have := hdata.finish_le other hother
              exact ⟨.inr h, by omega⟩
          · rintro ⟨h | h, hx⟩
            · exact .inl ⟨by omega, h.2⟩
            · exact .inr h
        · refine forall_mem_cons.mpr ⟨⟨packet, mem_cons_self, extractSize, not_le.mp hle,
            rfl⟩, fun other hother => hpart other (mem_cons_of_mem packet hother)⟩

/-! ## 6. What the buffer keeps -/

/-- The buffer holds bytes from `low` to `high`. Those that wait for the application are from `low` to
`nextRxSeq`, where a byte is missing. -/
structure Sound (low high : ℤ) (st : TcpRxBuffer ℤ β) : Prop where
  gotFin : st.gotFin = false
  ordered : Ordered st.data
  low_le : low ≤ st.nextRxSeq
  le_high : st.nextRxSeq ≤ high
  bounds : ∀ packet ∈ st.data, low ≤ packet.1 ∧ finish packet ≤ high
  holds : ∀ x, low ≤ x → x < st.nextRxSeq → Holds st.data x
  missing : ∀ packet ∈ st.data, finish packet ≤ st.nextRxSeq ∨ st.nextRxSeq < packet.1
  avail : st.availBytes = (st.nextRxSeq - low).toNat
  size : st.size = total st.data

namespace Sound

variable {low high : ℤ} {st : TcpRxBuffer ℤ β}

theorem start (finSeq : ℤ) (maxBuffer : Nat) (hhigh : 0 ≤ high) :
    Sound (β := β) 0 high { nextRxSeq := 0, finSeq := finSeq, maxBuffer := maxBuffer } where
  gotFin := rfl
  ordered := ⟨fun _ h => absurd h not_mem_nil, List.Pairwise.nil⟩
  low_le := le_rfl
  le_high := hhigh
  bounds _ h := absurd h not_mem_nil
  holds _ h₁ h₂ := absurd h₂ (not_lt.mpr h₁)
  missing _ h := absurd h not_mem_nil
  avail := rfl
  size := rfl

theorem total_le (h : Sound low high st) : (total st.data : ℤ) ≤ high - low :=
  h.ordered.total_le (fun packet hpkt => (h.bounds packet hpkt).1)
    (fun packet hpkt => (h.bounds packet hpkt).2) (h.low_le.trans h.le_high)

theorem within (h : Sound low high st) {high' : ℤ} (hnext : st.nextRxSeq ≤ high')
    (hdata : ∀ packet ∈ st.data, finish packet ≤ high') : Sound low high' st :=
  { h with
    le_high := hnext
    bounds := fun packet hpkt => ⟨(h.bounds packet hpkt).1, hdata packet hpkt⟩ }

theorem mono (h : Sound low high st) {high' : ℤ} (hle : high ≤ high') : Sound low high' st :=
  h.within (h.le_high.trans hle) fun packet hpkt => (h.bounds packet hpkt).2.trans hle

theorem not_holds (h : Sound low high st) : ¬Holds st.data st.nextRxSeq := by
  rintro ⟨packet, hpkt, hle, hlt⟩
  rcases h.missing packet hpkt with h | h
  · exact absurd hlt (not_lt.mpr h)
  · exact absurd hle (not_le.mpr h)

end Sound

/-- A segment that is put in, with `trimmed` as what is left of it. -/
structure Stored (low high : ℤ) (st : TcpRxBuffer ℤ β) (segment : Segment ℤ β)
    (trimmed : Trimmed ℤ β) (st' : TcpRxBuffer ℤ β) : Prop where
  sound : Sound low high st'
  maxBuffer : st'.maxBuffer = st.maxBuffer
  next_le : st.nextRxSeq ≤ st'.nextRxSeq
  holds : ∀ x, Holds st'.data x ↔ Holds st.data x ∨ (trimmed.headSeq ≤ x ∧ x < trimmed.tailSeq)
  mem : ∀ packet ∈ st'.data, packet ∈ st.data ∨ (trimmed.headSeq < trimmed.tailSeq ∧
    packet = (trimmed.headSeq, (segment.payload.drop (trimmed.headSeq - segment.seq).toNat).take
      (trimmed.tailSeq - trimmed.headSeq).toNat))
  sack : st'.sackList =
    let sackList := if trimmed.headSeq < trimmed.tailSeq ∧ st.nextRxSeq < trimmed.headSeq then
      updateSackList trimmed.headSeq trimmed.tailSeq st.sackList else st.sackList
    if st'.nextRxSeq = st.nextRxSeq then sackList else clearSackList st'.nextRxSeq sackList

section

variable {head tail : ℤ} {size : Nat} {data : List (ℤ × List β)} {trimmed : Trimmed ℤ β}

theorem Removed.holds (h : Removed head tail size data trimmed) {x : ℤ} (hx : Holds data x) :
    Holds trimmed.data x ∨ (trimmed.headSeq ≤ x ∧ x < trimmed.tailSeq) := by
  obtain ⟨packet, hpkt, hle, hlt⟩ := hx
  by_cases hmem : packet ∈ trimmed.data
  · exact .inl ⟨packet, hmem, hle, hlt⟩
  · obtain ⟨hfirst, hlast⟩ := h.given_up packet hpkt hmem
    exact .inr ⟨hfirst.le.trans hle, hlt.trans_le hlast⟩

theorem Removed.inserted (h : Removed head tail size data trimmed) (hdata : Ordered data)
    {p : List β} (hlt : trimmed.headSeq < trimmed.tailSeq)
    (hfinish : finish (trimmed.headSeq, p) = trimmed.tailSeq) :
    Inserted trimmed.headSeq p trimmed.data (insertPacket trimmed.headSeq p trimmed.data) ∧
      ∀ x, Holds (insertPacket trimmed.headSeq p trimmed.data) x ↔
        Holds data x ∨ (trimmed.headSeq ≤ x ∧ x < trimmed.tailSeq) := by
  have hend : trimmed.headSeq + p.length = trimmed.tailSeq := hfinish
  have hinsert : Inserted trimmed.headSeq p trimmed.data
      (insertPacket trimmed.headSeq p trimmed.data) :=
    insertPacket_spec (hdata.sublist h.sublist) (by omega) fun packet hpkt =>
      (h.apart packet hpkt).imp_right fun hle => hend.trans_le hle
  refine ⟨hinsert, fun x => ⟨?_, fun hx => ?_⟩⟩
  · rintro ⟨packet, hpkt, hin⟩
    rcases (hinsert.mem packet).mp hpkt with rfl | hpkt
    · exact .inr (hfinish ▸ hin)
    · exact .inl ⟨packet, h.sublist.subset hpkt, hin⟩
  · rcases hx.elim h.holds .inr with ⟨packet, hpkt, hin⟩ | hin
    · exact ⟨packet, (hinsert.mem packet).mpr (.inr hpkt), hin⟩
    · exact ⟨_, (hinsert.mem _).mpr (.inl rfl), hin.1, hfinish ▸ hin.2⟩

end

theorem store_spec {low high head tail : ℤ} {st : TcpRxBuffer ℤ β} {segment : Segment ℤ β}
    (hst : Sound low high st) (hwidth : high < low + 2 ^ 31)
    (hsegment : head < tail → st.nextRxSeq ≤ head ∧ segment.seq ≤ head ∧
      tail ≤ segment.seq + segment.payload.length ∧ tail ≤ high) :
    Stored low high st segment (st.trimmed head tail) (st.store segment head tail).1 := by
  have hspec : Removed head tail st.size st.data (st.trimmed head tail) :=
    removeOverlap_spec hst.ordered head tail st.size
  have htotal := hst.total_le
  have hbounds := hst.low_le.trans hst.le_high
  have hsize := hspec.size hst.size.ge (by rw [hst.size]; omega)
  have hordered := hst.ordered.sublist hspec.sublist
  unfold TcpRxBuffer.store
  dsimp only
  generalize st.trimmed head tail = trimmed at hspec hsize hordered ⊢
  have hsub : ∀ packet ∈ trimmed.data, packet ∈ st.data := fun packet hpkt =>
    hspec.sublist.subset hpkt
  by_cases hle : trimmed.tailSeq ≤ trimmed.headSeq
  · rw [if_pos (int_ge.mpr hle)]
    have hsame : ∀ x, Holds st.data x → Holds trimmed.data x := fun x hx =>
      (hspec.holds hx).resolve_right fun h => absurd (h.1.trans_lt h.2) (not_lt.mpr hle)
    refine ⟨⟨hst.gotFin, hordered, hst.low_le, hst.le_high, fun packet hpkt =>
      hst.bounds packet (hsub packet hpkt), fun x h₁ h₂ => hsame x (hst.holds x h₁ h₂),
      fun packet hpkt => hst.missing packet (hsub packet hpkt), hst.avail, ?_⟩, rfl, le_rfl,
      fun x => ⟨fun h => .inl (h.mono hsub), fun h => hsame x (h.resolve_right fun h => by omega)⟩,
      fun packet hpkt => .inl (hsub packet hpkt), ?_⟩
    · show trimmed.size = total trimmed.data
      rw [hst.size] at hsize
      omega
    · dsimp only
      rw [if_pos rfl, if_neg fun h => absurd h.1 (not_lt.mpr hle)]
  · rw [if_neg (mt int_ge.mp hle)]
    rw [not_le] at hle
    have hhead := hspec.head_le
    have htail := hspec.tail_le
    obtain ⟨hnext, hseq, hfinish, hhigh⟩ := hsegment (by omega)
    have hlen : ((segment.payload.drop (trimmed.headSeq - segment.seq).toNat).take
        (trimmed.tailSeq - trimmed.headSeq).toNat).length =
        (trimmed.tailSeq - trimmed.headSeq).toNat := by
      rw [length_take, length_drop]
      omega
    simp only [int_sub]
    generalize hp : (segment.payload.drop (trimmed.headSeq - segment.seq).toNat).take
      (trimmed.tailSeq - trimmed.headSeq).toNat = p at hlen ⊢
    have hnew : finish (trimmed.headSeq, p) = trimmed.tailSeq := by
      rw [finish_eq]
      dsimp only
      omega
    obtain ⟨hinsert, hdata⟩ := hspec.inserted hst.ordered hle hnew
    generalize insertPacket trimmed.headSeq p trimmed.data = data at hinsert hdata ⊢
    have hmem : ∀ packet ∈ data, packet = (trimmed.headSeq, p) ∨ packet ∈ st.data :=
      fun packet hpkt => ((hinsert.mem packet).mp hpkt).imp_right (hsub packet)
    have hadvance := advance_spec hinsert.ordered st.nextRxSeq st.availBytes
      (if gt trimmed.headSeq st.nextRxSeq then
        updateSackList trimmed.headSeq trimmed.tailSeq st.sackList else st.sackList)
      fun packet hpkt hlt => by
        rcases hmem packet hpkt with rfl | hpkt
        · exact absurd hlt (not_lt.mpr (hnext.trans hhead))
        · exact (hst.missing packet hpkt).resolve_right fun h => absurd hlt (not_lt.mpr h.le)
    generalize advance _ _ _ data = next at hadvance ⊢
    have hwithin : ∀ packet ∈ data, low ≤ packet.1 ∧ finish packet ≤ high := by
      intro packet hpkt
      rcases hmem packet hpkt with rfl | hpkt
      · have hlow := hst.low_le
        rw [hnew]
        exact ⟨hlow.trans (hnext.trans hhead), htail.trans hhigh⟩
      · exact hst.bounds packet hpkt
    have hhigh' : next.1 ≤ high := by
      rcases hadvance.le.eq_or_lt with heq | hlt
      · exact heq ▸ hst.le_high
      · obtain ⟨packet, hpkt, -, hlt'⟩ := hadvance.holds (next.1 - 1) (by omega) (by omega)
        have := (hwithin packet hpkt).2
        omega
    have hnextle := hadvance.le
    have hlow := hst.low_le
    have havail := hst.avail
    simp only [hst.gotFin, Bool.false_and, Bool.false_eq_true, if_false]
    refine ⟨⟨rfl, hinsert.ordered, hlow.trans hnextle, hhigh', hwithin, fun x h₁ h₂ => ?_,
      hadvance.missing, ?_, ?_⟩, rfl, hnextle, hdata, fun packet hpkt => ?_, ?_⟩
    · rcases lt_or_ge x st.nextRxSeq with h | h
      · exact (hdata x).mpr (.inl (hst.holds x h₁ h))
      · exact hadvance.holds x h h₂
    · dsimp only
      rw [hadvance.avail (by omega)]
      omega
    · have hle := hinsert.ordered.total_le (fun packet h => (hwithin packet h).1)
        (fun packet h => (hwithin packet h).2) hbounds
      have htotal' := hinsert.total
      have hstsize := hst.size
      dsimp only
      rw [u32_of_lt (by omega)]
      omega
    · rw [hp]
      exact (hmem packet hpkt).symm.imp_right fun h => ⟨hle, h⟩
    · rw [hadvance.sack]
      simp only [int_gt, hle, true_and]

/-- A read moves `low` on. -/
structure Extracted (low high : ℤ) (st st' : TcpRxBuffer ℤ β) (low' : ℤ) : Prop where
  sound : Sound low' high st'
  low_le : low ≤ low'
  maxBuffer : st'.maxBuffer = st.maxBuffer
  next : st'.nextRxSeq = st.nextRxSeq
  sack : st'.sackList = st.sackList
  holds : ∀ x, Holds st'.data x ↔ Holds st.data x ∧ low' ≤ x
  part : ∀ packet ∈ st'.data, ∃ other ∈ st.data, ∃ n < other.2.length,
    packet = (other.1 + n, other.2.drop n)

theorem extract_spec {low high : ℤ} {st : TcpRxBuffer ℤ β} (hst : Sound low high st)
    (hwidth : high < low + 2 ^ 31) (maxSize : Nat) :
    Extracted low high st (st.extract maxSize).1 (low + min maxSize st.availBytes) := by
  have havail := hst.avail
  have hlow := hst.low_le
  have hhigh := hst.le_high
  have htotal := hst.total_le
  have hsize := hst.size
  have htaken := takeFront_spec hst.ordered low (min maxSize st.availBytes)
    (fun packet hpkt => (hst.bounds packet hpkt).1) fun x h₁ h₂ => hst.holds x h₁ (by omega)
  have hsame : ∀ {packet}, packet ∈ st.data → ∃ other ∈ st.data, ∃ n < other.2.length,
      packet = (other.1 + (n : Nat), other.2.drop n) := fun {packet} hpkt => by
    have hpos := hst.ordered.nonempty packet hpkt
    rw [finish_eq] at hpos
    exact ⟨packet, hpkt, 0, by omega, by rw [Nat.cast_zero, add_zero, drop_zero]⟩
  have hle := Nat.min_le_right maxSize st.availBytes
  unfold TcpRxBuffer.extract
  dsimp only
  generalize min maxSize st.availBytes = extractSize at htaken hle ⊢
  rcases Nat.eq_zero_or_pos extractSize with rfl | hpos
  · rw [if_pos rfl, Nat.cast_zero, add_zero]
    refine ⟨hst, le_rfl, rfl, rfl, rfl, fun x => ⟨fun h => ⟨h, ?_⟩, fun h => h.1⟩,
      fun packet => hsame⟩
    obtain ⟨packet, hpkt, hle, -⟩ := h
    exact (hst.bounds packet hpkt).1.trans hle
  · rw [if_neg hpos.ne']
    dsimp only
    generalize takeFront extractSize st.data = taken at htaken ⊢
    obtain ⟨hlen, hordered, htotal', hholds, hpart⟩ := htaken
    have hbounds : ∀ packet ∈ taken.2, low + extractSize ≤ packet.1 ∧ finish packet ≤ high := by
      intro packet hpkt
      have hne := hordered.nonempty packet hpkt
      obtain ⟨other, hother, n, hn, heq⟩ := hpart packet hpkt
      have hfinish := (hst.bounds other hother).2
      refine ⟨((hholds packet.1).mp ⟨packet, hpkt, le_rfl, hne⟩).2, ?_⟩
      rw [heq, finish_eq, length_drop]
      rw [finish_eq] at hfinish
      dsimp only
      omega
    refine ⟨⟨hst.gotFin, hordered, by dsimp only; omega, hhigh, hbounds, fun x h₁ h₂ => ?_,
      fun packet hpkt => ?_, ?_, ?_⟩, by omega, rfl, rfl, rfl, hholds, hpart⟩
    · exact (hholds x).mpr ⟨hst.holds x (by omega) h₂, h₁⟩
    · -- a packet or its end is on the same side of the missing byte
      obtain ⟨other, hother, n, hn, rfl⟩ := hpart packet hpkt
      rw [finish_eq, length_drop]
      rcases hst.missing other hother with h | h
      · rw [finish_eq] at h
        dsimp only
        omega
      · dsimp only
        omega
    · dsimp only
      rw [hlen, sub32_of_le (by omega) (by omega)]
      omega
    · dsimp only
      rw [hlen, sub32_of_le (by omega) (by omega)]
      omega

/-! ## 7. The line and the sequence numbers -/

section

variable {γ : Type} {g : β → γ} {s : SequenceNumber32} {start low high : ℤ} {st : TcpRxBuffer ℤ β}

theorem Sound.inWindow (hst : Sound low high st) (hstart : start ≤ low)
    (hwidth : high < start + 2 ^ 31) : InWindow (Window start) st.data := by
  intro packet hpkt
  obtain ⟨hlow, hhigh⟩ := hst.bounds packet hpkt
  rw [finish_eq] at hhigh
  refine ⟨⟨by omega, by omega⟩, fun n hn => ?_⟩
  rw [int_add]
  exact ⟨by omega, by omega⟩

theorem extract_map (hst : Sound low high st) (hwidth : high < low + 2 ^ 31) (maxSize : Nat) :
    (st.map (position s) g).extract maxSize =
      ((st.extract maxSize).1.map (position s) g, (st.extract maxSize).2.map (List.map g)) := by
  have htake := takeFront_map (g := g) (agrees_position s low) (min maxSize st.availBytes)
    (hst.inWindow le_rfl hwidth)
  unfold TcpRxBuffer.extract
  dsimp only
  rw [map_data, map_availBytes, map_size, htake, length_map]
  by_cases hzero : min maxSize st.availBytes = 0
  · rw [if_pos hzero, if_pos hzero]
    rfl
  · rw [if_neg hzero, if_neg hzero]
    refine Prod.ext (map_update (position s) g st st.nextRxSeq _ _ _ st.sackList) ?_
    dsimp only
    split
    · rfl
    · rfl

theorem mem_insertPacket {seq : ℤ} {p : List β} {data : List (ℤ × List β)} {packet : ℤ × List β}
    (h : packet ∈ insertPacket seq p data) : packet = (seq, p) ∨ packet ∈ data := by
  induction data with
  | nil => exact .inl (mem_singleton.mp h)
  | cons first rest ih =>
    rw [insertPacket] at h
    simp only [int_lt] at h
    split at h
    · exact mem_cons.mp h
    · next hle =>
      split at h
      · rcases mem_cons.mp h with rfl | h
        · exact .inr mem_cons_self
        · exact (ih h).imp_right (mem_cons_of_mem first)
      · next hge =>
        rcases mem_cons.mp h with rfl | h
        · exact .inl (Prod.ext (le_antisymm (not_lt.mp hle) (not_lt.mp hge)) rfl)
        · exact .inr (mem_cons_of_mem first h)

/-- A segment is put in at sequence numbers as it is at positions. -/
theorem store_map {head tail : ℤ} {segment : Segment ℤ β} {segment' : Segment SequenceNumber32 γ}
    (hst : Sound low high st) (hstart : start ≤ low) (hwidth : high < start + 2 ^ 31)
    (hsack : BlocksInWindow (Window start) st.sackList) (hhead : Window start head)
    (htail : Window start tail) (hpayload : segment'.payload = segment.payload.map g)
    (hseq : ∀ x, head ≤ x → x < tail → sub (position s x) segment'.seq = (x - segment.seq).toNat) :
    ((st.map (position s) g).store segment' (position s head) (position s tail)).1 =
      (st.store segment head tail).1.map (position s) g := by
  have e := agrees_position s start
  have hwindow := hst.inWindow hstart hwidth
  have hnext : Window start st.nextRxSeq := ⟨hstart.trans hst.low_le, hst.le_high.trans_lt hwidth⟩
  have hspec := removeOverlap_spec hst.ordered head tail st.size
  obtain ⟨hhead', htail', hdata'⟩ := removeOverlap_window hhead htail hwindow st.size
  unfold TcpRxBuffer.store TcpRxBuffer.trimmed
  dsimp only
  rw [map_size, map_data, removeOverlap_map e hhead htail hwindow]
  generalize removeOverlap head tail st.size st.data = trimmed at hspec hhead' htail' hdata' ⊢
  unfold Trimmed.map
  dsimp only
  rw [e.ge hhead' htail']
  split
  · rfl
  · next hlt =>
    rw [int_ge, not_le] at hlt
    have htail := hspec.tail_le
    rw [map_nextRxSeq, map_sackList, map_gotFin, map_availBytes, e.gt hhead' hnext,
      e.sub htail' hhead' (by rw [← Bool.not_eq_true, int_gt]; omega),
      hseq _ hspec.head_le (by omega), hpayload, ← map_drop, ← map_take, int_sub,
      int_sub]
    have hlen : ((segment.payload.drop (trimmed.headSeq - segment.seq).toNat).take
        (trimmed.tailSeq - trimmed.headSeq).toNat).length ≤
        (trimmed.tailSeq - trimmed.headSeq).toNat := length_take_le _ _
    generalize (segment.payload.drop (trimmed.headSeq - segment.seq).toNat).take
      (trimmed.tailSeq - trimmed.headSeq).toNat = p at hlen ⊢
    have hupdate := updateSackList_map e hhead' htail' hsack
    have hblocks : BlocksInWindow (Window start) (if gt trimmed.headSeq st.nextRxSeq then
        updateSackList trimmed.headSeq trimmed.tailSeq st.sackList else st.sackList) := by
      split
      · exact updateSackList_forall (fun h₁ h₂ => ⟨h₁.1, h₂.2⟩) ⟨hhead', htail'⟩ hsack
      · exact hsack
    have hinserted : InWindow (Window start) (insertPacket trimmed.headSeq p trimmed.data) := by
      intro packet hpkt
      rcases mem_insertPacket hpkt with rfl | hpkt
      · refine ⟨hhead', fun n hn => ?_⟩
        obtain ⟨hlow, -⟩ := hhead'
        obtain ⟨-, hhigh⟩ := htail'
        rw [int_add]
        dsimp only at hn ⊢
        exact ⟨by omega, by omega⟩
      · exact hdata' packet hpkt
    rw [hupdate, ← apply_ite (mapBlocks (position s)),
      insertPacket_map e hhead' fun packet hpkt => (hdata' packet hpkt).1,
      advance_map e hnext hblocks hinserted]
    have hfin : ∀ b : Bool, ¬(st.gotFin && b) = true := fun b => by
      rw [hst.gotFin, Bool.false_and]
      exact Bool.false_ne_true
    rw [if_neg (hfin _), if_neg (hfin _), length_map]
    exact map_update (position s) g st _ _ _ _ _

end

end MoeJit.Tcp
