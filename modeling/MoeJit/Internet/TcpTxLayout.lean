import MoeJit.Internet.SegmentList
import Mathlib.Data.List.TakeWhile

/-!
# The layout of the send buffer

What the operations do to the lists. `Layout`: the items have bytes, the sent ones begin one after
the other at the first byte, and the sizes are those of the lists. Every operation keeps it
(`Layout.perform`), at any size.

`Sends` and `Drops` say what `CopyFromSequence` and the loop of `DiscardUpTo` can do.
-/

namespace MoeJit.Tcp

open List
open BitVec (le_def lt_def ofNat ofNat_toNat setWidth_eq toNat_add toNat_sub_of_le)

open Bytes (Byte)
open TcpTxBuffer

structure Layout (s : TcpTxBuffer) : Prop where
  nonempty_sent : Nonempty s.sentList
  nonempty_app : Nonempty s.appList
  placed : Placed s.firstByteSeq s.sentList
  size : s.size.toNat = (bytesOf s.sentList).length + (bytesOf s.appList).length
  sentSize : s.sentSize.toNat = (bytesOf s.sentList).length
  room : s.size.toNat ≤ s.maxBuffer.toNat

namespace Layout

variable {s : TcpTxBuffer}

theorem length_lt (hs : Layout s) :
    (bytesOf s.sentList).length + (bytesOf s.appList).length < 2 ^ 32 :=
  hs.size ▸ s.size.isLt

theorem length_sent_lt (hs : Layout s) : (bytesOf s.sentList).length < 2 ^ 32 :=
  hs.sentSize ▸ s.sentSize.isLt

theorem length_app_lt (hs : Layout s) : (bytesOf s.appList).length < 2 ^ 32 :=
  Nat.lt_of_le_of_lt (Nat.le_add_left _ _) hs.length_lt

theorem sentSize_eq (hs : Layout s) : s.sentSize = ofNat 32 (bytesOf s.sentList).length := by
  rw [← hs.sentSize, ofNat_toNat, setWidth_eq]

theorem size_eq (hs : Layout s) :
    s.size = ofNat 32 ((bytesOf s.sentList).length + (bytesOf s.appList).length) := by
  rw [← hs.size, ofNat_toNat, setWidth_eq]

end Layout

theorem layout_initial (n maxBuffer dupAckThresh segmentSize : BitVec 32) (sackEnabled : Bool) :
    Layout (initial n maxBuffer dupAckThresh segmentSize sackEnabled) where
  nonempty_sent := forall_mem_nil _
  nonempty_app := forall_mem_nil _
  placed := trivial
  size := rfl
  sentSize := rfl
  room := Nat.zero_le _

/-! ## 1. Sending -/

/-- The item with which a new segment is sent. -/
def TcpTxItem.sent (item : TcpTxItem) (seq : SequenceNumber32) (node : Nat) (now : Int) :
    TcpTxItem :=
  { item with startSeq := seq, node := node, lastSent := now }

/-- The item with which a segment is sent again. -/
def TcpTxItem.sentAgain (item : TcpTxItem) (now : Int) : TcpTxItem :=
  { item with retrans := true, lastSent := now }

/-- What it is to send at most `numBytes` from `seq` on: a new segment, or one again. -/
inductive Sends (s : TcpTxBuffer) (numBytes : BitVec 32) (seq : SequenceNumber32) (now : Int) :
    TcpTxBuffer → TcpTxItem → Prop
  | new (item : TcpTxItem) {rest : List TcpTxItem} {retrans : BitVec 32} {nodes : Nat}
      (hseq : seq = s.firstByteSeq + s.sentSize)
      (hedit : Reshape s.appList s.retrans (item :: rest) retrans) (hnodes : s.nodes ≤ nodes)
      (hlength : (bytesOf s.appList).length < 2 ^ 31 → item.packet.length ≤ numBytes.toNat)
      (hretrans : item.retrans = false) :
      Sends s numBytes seq now { s with
        appList := rest
        sentList := s.sentList ++ [item.sent seq nodes now]
        sentSize := s.sentSize + item.size
        retrans := retrans
        nodes := nodes + 1 } (item.sent seq nodes now)
  | again (item : TcpTxItem) {before after : List TcpTxItem} {retrans : BitVec 32} {nodes : Nat}
      (hedit : Reshape s.sentList s.retrans (before ++ item :: after) retrans)
      (hnodes : s.nodes ≤ nodes) (hplace : (bytesOf before).length = (seq - s.firstByteSeq).toNat)
      (hlength : (bytesOf s.sentList).length < 2 ^ 31 → item.packet.length ≤ numBytes.toNat)
      (hsacked : item.sacked = false) :
      Sends s numBytes seq now { s with
        sentList := before ++ item.sentAgain now :: after
        retrans := if item.retrans then retrans else retrans + item.size
        nodes := nodes } (item.sentAgain now)

variable {s s' : TcpTxBuffer} {numBytes offset : BitVec 32} {seq : SequenceNumber32} {now : Int}
  {item : TcpTxItem} {items : List TcpTxItem}

theorem Sends.mono {numBytes' : BitVec 32} (h : Sends s numBytes seq now s' item)
    (hle : numBytes.toNat ≤ numBytes'.toNat) : Sends s numBytes' seq now s' item := by
  cases h with
  | new item hseq hedit hnodes hlen hretrans =>
    exact .new item hseq hedit hnodes (fun hhalf => le_trans (hlen hhalf) hle) hretrans
  | again item hedit hnodes hplace hlen hsacked =>
    exact .again item hedit hnodes hplace (fun hhalf => le_trans (hlen hhalf) hle) hsacked

theorem minimum_le_left (a b : BitVec 32) : (minimum a b).toNat ≤ a.toNat := by
  unfold minimum
  split
  · next h => exact le_of_lt h
  · exact le_refl _

theorem minimum_le_right (a b : BitVec 32) : (minimum a b).toNat ≤ b.toNat := by
  unfold minimum
  split
  · exact Nat.le_refl _
  · next h => exact Nat.le_of_not_lt h

theorem minimum_pos {a b : BitVec 32} (ha : 0 < a.toNat) (hb : 0 < b.toNat) :
    0 < (minimum a b).toNat := by
  unfold minimum
  split
  · exact hb
  · exact ha

theorem transmittedBytes_le (numBytes : BitVec 32) (seq : SequenceNumber32)
    (items : List TcpTxItem) : (transmittedBytes numBytes seq items).toNat ≤ numBytes.toNat := by
  induction items with
  | nil => exact le_refl _
  | cons item rest ih =>
    unfold transmittedBytes
    split
    · cases rest with
      | nil => exact minimum_le_left _ _
      | cons next rest =>
        dsimp only
        split
        · exact minimum_le_left _ _
        · exact minimum_le_left _ _
    · exact ih

theorem transmittedBytes_pos (hnum : 0 < numBytes.toNat) (seq : SequenceNumber32)
    (hbound : (bytesOf items).length < 2 ^ 32) (hitems : Nonempty items) :
    0 < (transmittedBytes numBytes seq items).toNat := by
  induction items with
  | nil => exact hnum
  | cons item rest ih =>
    obtain ⟨hitem, hrest⟩ := nonempty_cons.mp hitems
    rw [bytesOf_cons, length_append] at hbound
    have hsize : item.size.toNat = item.packet.length := toNat_size (by omega)
    unfold transmittedBytes
    split
    · cases rest with
      | nil => exact minimum_pos hnum (hsize.symm ▸ hitem)
      | cons next rest =>
        rw [bytesOf_cons, length_append] at hbound
        have hnext : next.size.toNat = next.packet.length := toNat_size (by omega)
        dsimp only
        split
        · refine minimum_pos hnum ?_
          rw [toNat_add, hsize, hnext, Nat.mod_eq_of_lt (by omega)]
          exact Nat.add_pos_left hitem _
        · exact minimum_pos hnum (hsize.symm ▸ hitem)
    · exact ih (by omega) hrest

theorem eq_nil_of_length_bytesOf (hitems : Nonempty items) (h : (bytesOf items).length = 0) :
    items = [] := by
  cases items with
  | nil => rfl
  | cons item rest =>
    have hpos := hitems item mem_cons_self
    rw [bytesOf_cons, length_append] at h
    omega

theorem toNat_pos_of_ne_zero {x : BitVec 32} (h : x ≠ 0) : 0 < x.toNat :=
  pos_of_ne_zero fun h0 => h (BitVec.eq_of_toNat_eq h0)

variable {found : Found} {result : Option TcpTxItem} {s'' : TcpTxBuffer} {bytes : BitVec 32}

section Copy

variable {s s' : TcpTxBuffer} {numBytes : BitVec 32} {seq : SequenceNumber32} {now : Int}

theorem returnItem_ok (h : s.returnItem found now = .ok (s', result)) :
    s' = { s with sentList := found.before ++ { found.item with lastSent := now } :: found.after } ∧
      result = some { found.item with lastSent := now } := by
  unfold returnItem at h
  dsimp only at h
  split at h
  · cases h
    exact ⟨rfl, rfl⟩
  · cases h

theorem sends_new (hs : Layout s) (hnum : 0 < numBytes.toNat)
    (hseq : s.firstByteSeq + s.sentSize = seq) (h : s.getNewSegment numBytes = .ok (s', found))
    (hretrans : found.item.retrans = false) (hreturn : s'.returnItem found now = .ok (s'', result))
    : ∃ item, result = some item ∧ Sends s numBytes seq now s'' item := by
  obtain ⟨⟨before, item, after, retrans, nodes⟩, hfound, heq⟩ := except_bind_eq_ok.mp h
  obtain ⟨hedit, hnodes, hplace, hlen⟩ :=
    getPacketFromList_ok hnum hs.length_app_lt hs.nonempty_app hfound
  cases heq
  obtain ⟨rfl, rfl⟩ := returnItem_ok hreturn
  have hbefore : before = [] := by
    refine eq_nil_of_length_bytesOf (nonempty_append.mp (hedit.nonempty hs.nonempty_app)).1 ?_
    rw [hplace, SequenceNumber32.sub_def, sub_self]
    rfl
  subst hbefore
  subst hseq
  exact ⟨_, rfl, .new item rfl hedit hnodes hlen hretrans⟩

theorem sends_again (hs : Layout s) (hnum : 0 < numBytes.toNat)
    (h : s.getTransmittedSegment numBytes seq = .ok (s', found))
    (hsacked : found.item.sacked = false) (hreturn : s'.returnItem found now = .ok (s'', result)) :
    ∃ item, result = some item ∧ Sends s numBytes seq now s'' item := by
  unfold getTransmittedSegment at h
  split at h
  · obtain ⟨⟨before, item, after, retrans, nodes⟩, hfound, heq⟩ := except_bind_eq_ok.mp h
    obtain ⟨hedit, hnodes, hplace, hlen⟩ :=
      getPacketFromList_ok (transmittedBytes_pos hnum seq hs.length_sent_lt hs.nonempty_sent)
        hs.length_sent_lt hs.nonempty_sent hfound
    cases heq
    obtain ⟨rfl, rfl⟩ := returnItem_ok hreturn
    exact ⟨_, rfl, .again item hedit hnodes hplace
      (fun hhalf => le_trans (hlen hhalf) (transmittedBytes_le _ _ _)) hsacked⟩
  · cases h

theorem copyFromSequenceIn_ok (hs : Layout s) {calls : Nat}
    (h : s.copyFromSequenceIn seq now calls numBytes = .ok (s', result)) :
    (result = none ∧ s' = s) ∨ ∃ item, result = some item ∧ Sends s numBytes seq now s' item := by
  induction calls generalizing numBytes with
  | zero => cases h
  | succ calls ih =>
    unfold copyFromSequenceIn at h
    split at h
    · cases h
    · dsimp only at h
      split at h
      · cases h
        exact .inl ⟨rfl, rfl⟩
      · next hbytes =>
        have hpos := toNat_pos_of_ne_zero hbytes
        have hle := minimum_le_left numBytes (s.sizeFromSequence seq)
        split at h
        · obtain ⟨⟨s₁, found⟩, hsegment, h⟩ := except_bind_eq_ok.mp h
          dsimp only at h
          split at h
          · cases h
          · next hsacked =>
            obtain ⟨item, hresult, hsends⟩ :=
              sends_again hs hpos hsegment (Bool.not_eq_true _ ▸ hsacked) h
            exact .inr ⟨item, hresult, hsends.mono hle⟩
        · split at h
          · split at h
            · cases h
            · next hseq =>
              obtain ⟨⟨s₁, found⟩, hsegment, h⟩ := except_bind_eq_ok.mp h
              dsimp only at h
              split at h
              · cases h
              · next hretrans =>
                obtain ⟨item, hresult, hsends⟩ := sends_new hs hpos (not_not.mp hseq) hsegment
                  (Bool.not_eq_true _ ▸ hretrans) h
                exact .inr ⟨item, hresult, hsends.mono hle⟩
          · split at h
            · next hsplit =>
              obtain ⟨hlt, hgt⟩ := hsplit
              refine (ih h).imp_right fun ⟨item, hresult, hsends⟩ => ⟨item, hresult, hsends.mono ?_⟩
              refine le_trans ?_ hle
              rw [lt_def] at hlt hgt
              rw [toNat_sub_of_le (le_def.mpr (le_of_lt hlt))]
              have hsum := toNat_add seq.value (minimum numBytes (s.sizeFromSequence seq))
              omega
            · cases h

theorem copyFromSequence_ok (hs : Layout s)
    (h : s.copyFromSequence numBytes seq now = .ok (s', result)) :
    (result = none ∧ s' = s) ∨ ∃ item, result = some item ∧ Sends s numBytes seq now s' item :=
  copyFromSequenceIn_ok hs h

end Copy

theorem Layout.sends {sent : TcpTxItem} (hs : Layout s) (h : Sends s numBytes seq now s' sent) :
    Layout s' := by
  cases h with
  | @new item rest retrans nodes hseq hedit hnodes hlen hretrans =>
    have hbytes := congrArg List.length hedit.bytesOf_eq
    rw [bytesOf_cons, length_append] at hbytes
    obtain ⟨hitem, hrest⟩ := nonempty_cons.mp (hedit.nonempty hs.nonempty_app)
    have hsent : (bytesOf (s.sentList ++ [item.sent seq nodes now])).length =
        (bytesOf s.sentList).length + item.packet.length := by
      rw [bytesOf_append, length_append, bytesOf_cons, bytesOf_nil, append_nil]
      rfl
    have hlt := hs.length_lt
    constructor
    case nonempty_sent =>
      exact nonempty_append.mpr ⟨hs.nonempty_sent, nonempty_cons.mpr ⟨hitem, forall_mem_nil _⟩⟩
    case nonempty_app => exact hrest
    case placed => exact placed_append.mpr ⟨hs.placed, hs.sentSize_eq ▸ hseq, trivial⟩
    case size =>
      show s.size.toNat = _ + (bytesOf rest).length
      rw [hs.size, hsent, ← hbytes, add_assoc]
    case sentSize =>
      show (s.sentSize + item.size).toNat = _
      rw [hsent, toNat_add, hs.sentSize, toNat_size (by omega), Nat.mod_eq_of_lt (by omega)]
    case room => exact hs.room
  | @again item before after retrans nodes hedit hnodes hplace hlen hsacked =>
    have hbytes : bytesOf (before ++ item.sentAgain now :: after) = bytesOf s.sentList := by
      rw [← hedit.bytesOf_eq, bytesOf_append, bytesOf_append, bytesOf_cons, bytesOf_cons]
      rfl
    constructor
    case nonempty_sent =>
      obtain ⟨hbefore, hafter⟩ := nonempty_append.mp (hedit.nonempty hs.nonempty_sent)
      obtain ⟨hitem, hafter⟩ := nonempty_cons.mp hafter
      exact nonempty_append.mpr ⟨hbefore, nonempty_cons.mpr ⟨hitem, hafter⟩⟩
    case nonempty_app => exact hs.nonempty_app
    case placed =>
      obtain ⟨hbefore, hitem, hafter⟩ := placed_append.mp (hedit.placed hs.placed)
      exact placed_append.mpr ⟨hbefore, hitem, hafter⟩
    case size =>
      show s.size.toNat = (bytesOf (before ++ item.sentAgain now :: after)).length + _
      rw [hbytes, hs.size]
    case sentSize =>
      show s.sentSize.toNat = (bytesOf (before ++ item.sentAgain now :: after)).length
      rw [hbytes, hs.sentSize]
    case room => exact hs.room

/-! ## 2. Flags -/

/-- What is left of the items without their flags. -/
def segments (items : List TcpTxItem) : List (SequenceNumber32 × List Byte) :=
  items.map fun item => (item.startSeq, item.packet)

theorem bytesOf_eq_segments (items : List TcpTxItem) :
    bytesOf items = (segments items).flatMap Prod.snd := by
  rw [segments, flatMap_map]
  rfl

theorem nonempty_iff_segments (items : List TcpTxItem) :
    Nonempty items ↔ ∀ segment ∈ segments items, 0 < segment.2.length := by
  rw [segments, forall_mem_map]
  rfl

theorem placed_of_segments {items' : List TcpTxItem} {start : SequenceNumber32}
    (h : segments items' = segments items) (hitems : Placed start items) : Placed start items' := by
  induction items generalizing items' start with
  | nil =>
    rw [map_eq_nil_iff.mp h]
    trivial
  | cons item items ih =>
    obtain ⟨item', items'', rfl, hitem, hrest⟩ := map_eq_cons_iff.mp h
    obtain ⟨hstart, hpkt⟩ := Prod.mk.inj hitem
    refine ⟨hstart.trans hitems.1, ?_⟩
    rw [TcpTxItem.size, hpkt]
    exact ih hrest hitems.2

/-- Only flags and counts are different. -/
theorem Layout.of_segments (hs : Layout s) (hsent : segments s'.sentList = segments s.sentList)
    (happ : s'.appList = s.appList) (hsize : s'.size = s.size)
    (hsentSize : s'.sentSize = s.sentSize) (hfirst : s'.firstByteSeq = s.firstByteSeq)
    (hmax : s'.maxBuffer = s.maxBuffer) : Layout s' := by
  have hbytes : bytesOf s'.sentList = bytesOf s.sentList := by
    rw [bytesOf_eq_segments, hsent, ← bytesOf_eq_segments]
  constructor
  case nonempty_sent =>
    rw [nonempty_iff_segments, hsent, ← nonempty_iff_segments]
    exact hs.nonempty_sent
  case nonempty_app =>
    rw [happ]
    exact hs.nonempty_app
  case placed =>
    rw [hfirst]
    exact placed_of_segments hsent hs.placed
  case size => rw [hsize, hbytes, happ, hs.size]
  case sentSize => rw [hsentSize, hbytes, hs.sentSize]
  case room =>
    rw [hsize, hmax]
    exact hs.room

/-! ## 3. Discarding -/

/-- The buffer without its head. -/
def withoutHead (s : TcpTxBuffer) (item : TcpTxItem) (rest : List TcpTxItem) : TcpTxBuffer :=
  { s with
    size := s.size - item.size
    sentSize := s.sentSize - item.size
    firstByteSeq := s.firstByteSeq + item.size
    sentList := rest }

/-- The rest of an item. -/
def TcpTxItem.from (item : TcpTxItem) (offset : BitVec 32) : TcpTxItem :=
  { item with packet := item.packet.drop offset.toNat, startSeq := item.startSeq + offset }

/-- The buffer without the first bytes of its head. -/
def withShorterHead (s : TcpTxBuffer) (item : TcpTxItem) (rest : List TcpTxItem)
    (offset : BitVec 32) : TcpTxBuffer :=
  { s with
    sentList := item.from offset :: rest
    size := s.size - offset
    sentSize := s.sentSize - offset
    firstByteSeq := s.firstByteSeq + offset }

/-- The counts without bytes that have the flags of the item. -/
def uncounted (s : TcpTxBuffer) (item : TcpTxItem) (size : BitVec 32) : TcpTxBuffer :=
  { s with
    sackedOut := if item.sacked then s.sackedOut - size else s.sackedOut
    retrans := if item.retrans then s.retrans - size else s.retrans
    lostOut := if item.lost then s.lostOut - size else s.lostOut }

/-- The rounds of the loop of `DiscardUpTo`. -/
inductive Drops (now : Int) : TcpTxBuffer → BitVec 32 → TcpTxBuffer → Prop
  | done {s : TcpTxBuffer} {offset : BitVec 32} (h : s.size = 0 ∨ offset = 0) : Drops now s offset s
  | send {s s₁ s' : TcpTxBuffer} {offset : BitVec 32} {item : TcpTxItem} (hempty : s.sentList = [])
      (hsends : Sends s offset s.firstByteSeq now s₁ item) (rest : Drops now s₁ offset s') :
      Drops now s offset s'
  | whole {s s' : TcpTxBuffer} {offset : BitVec 32} {item : TcpTxItem} {items : List TcpTxItem}
      (hlist : s.sentList = item :: items) (hle : item.size ≤ offset)
      (rest : Drops now (uncounted (withoutHead s item items) item item.size)
        (offset - item.size) s') : Drops now s offset s'
  | part {s : TcpTxBuffer} {offset : BitVec 32} {item : TcpTxItem} {items : List TcpTxItem}
      (hlist : s.sentList = item :: items) (hpos : offset ≠ 0) (hlt : offset < item.size) :
      Drops now s offset (uncounted (withShorterHead s item items offset) item offset)

theorem removeFromCounts_ok {size : BitVec 32} (h : s.removeFromCounts item size = .ok s') :
    s' = uncounted s item size := by
  unfold removeFromCounts at h
  split at h
  · cases h
  · cases h
    rfl

section Discard

variable {s s' : TcpTxBuffer} {now : Int} {offset : BitVec 32} {item : TcpTxItem}
  {items : List TcpTxItem}

theorem Layout.uncounted (hs : Layout s) (size : BitVec 32) : Layout (uncounted s item size) :=
  hs.of_segments rfl rfl rfl rfl rfl rfl

section

variable (hs : Layout s) (hlist : s.sentList = item :: items)
include hs hlist

theorem Layout.length_head : 0 < item.packet.length ∧ item.size.toNat = item.packet.length ∧
      s.sentSize.toNat = item.packet.length + (bytesOf items).length := by
  have hsent := hs.sentSize
  have hlt := s.sentSize.isLt
  rw [hlist, bytesOf_cons, length_append] at hsent
  have hne := hs.nonempty_sent
  rw [hlist] at hne
  exact ⟨(nonempty_cons.mp hne).1, toNat_size (by omega), hsent⟩

theorem Layout.withoutHead : Layout (withoutHead s item items) := by
  obtain ⟨hpos, hitem, hsent⟩ := hs.length_head hlist
  have hsize := hs.size
  rw [← hs.sentSize, hsent] at hsize
  have hne := hs.nonempty_sent
  have hplaced := hs.placed
  rw [hlist] at hne hplaced
  have hsub : (s.size - item.size).toNat = s.size.toNat - item.packet.length := by
    rw [toNat_sub_of_le (le_def.mpr (by omega)), hitem]
  constructor
  case nonempty_sent => exact (nonempty_cons.mp hne).2
  case nonempty_app => exact hs.nonempty_app
  case placed => exact hplaced.2
  case size =>
    show (s.size - item.size).toNat = (bytesOf items).length + (bytesOf s.appList).length
    omega
  case sentSize =>
    show (s.sentSize - item.size).toNat = (bytesOf items).length
    rw [toNat_sub_of_le (le_def.mpr (by omega))]
    omega
  case room =>
    show (s.size - item.size).toNat ≤ s.maxBuffer.toNat
    have hroom := hs.room
    omega

theorem Layout.withShorterHead (hlt : offset < item.size) :
    Layout (withShorterHead s item items offset) := by
  obtain ⟨hpos, hitem, hsent⟩ := hs.length_head hlist
  have hsize := hs.size
  rw [← hs.sentSize, hsent] at hsize
  have hne := hs.nonempty_sent
  have hplaced := hs.placed
  rw [hlist] at hne hplaced
  have hoffset : offset.toNat < item.packet.length := hitem ▸ lt_def.mp hlt
  have hrest : (item.from offset).packet.length = item.packet.length - offset.toNat := length_drop
  have hsub : (s.size - offset).toNat = s.size.toNat - offset.toNat :=
    toNat_sub_of_le (le_def.mpr (by omega))
  constructor
  case nonempty_sent =>
    exact nonempty_cons.mpr ⟨hrest ▸ Nat.sub_pos_of_lt hoffset, (nonempty_cons.mp hne).2⟩
  case nonempty_app => exact hs.nonempty_app
  case placed =>
    have hstart : item.startSeq + offset = s.firstByteSeq + offset := by rw [hplaced.1]
    refine ⟨hstart, ?_⟩
    have hparts : offset + (item.from offset).size = item.size := by
      refine BitVec.eq_of_toNat_eq ?_
      rw [toNat_add, toNat_size (by omega), hrest, hitem]
      have := item.size.isLt
      omega
    show Placed (s.firstByteSeq + offset + (item.from offset).size) items
    rw [SequenceNumber32.add_assoc, hparts]
    exact hplaced.2
  case size =>
    show (s.size - offset).toNat = (bytesOf (item.from offset :: items)).length +
      (bytesOf s.appList).length
    rw [bytesOf_cons, length_append]
    omega
  case sentSize =>
    show (s.sentSize - offset).toNat = (bytesOf (item.from offset :: items)).length
    rw [bytesOf_cons, length_append, toNat_sub_of_le (le_def.mpr (by omega))]
    omega
  case room =>
    show (s.size - offset).toNat ≤ s.maxBuffer.toNat
    have hroom := hs.room
    omega

end

/-- Every round is one of the rounds above. -/
theorem discard_ok (hs : Layout s) {rounds : Nat} (h : TcpTxBuffer.discard now rounds offset s = .ok s') :
    Drops now s offset s' := by
  induction rounds generalizing s offset with
  | zero => cases h
  | succ rounds ih =>
    unfold TcpTxBuffer.discard at h
    split at h
    · next hdone =>
      cases h
      exact .done hdone
    · next hmore =>
      have hoffset : offset ≠ 0 := fun h0 => hmore (.inr h0)
      obtain ⟨s₁, hmove, h⟩ := except_bind_eq_ok.mp h
      have hhead (hs₁ : Layout s₁) : Drops now s₁ offset s' := by
        split at h
        · cases h
        · next item rest hlist =>
          split at h
          · cases h
          · split at h
            · next hle =>
              obtain ⟨s₂, hcounts, h⟩ := except_bind_eq_ok.mp h
              cases removeFromCounts_ok hcounts
              exact .whole hlist hle (ih ((hs₁.withoutHead hlist).uncounted _) h)
            · next hnot =>
              cases removeFromCounts_ok h
              exact .part hlist hoffset (BitVec.not_le.mp hnot)
      unfold moveToSentList at hmove
      split at hmove
      · next hempty =>
        obtain ⟨⟨s₂, result⟩, hcopy, hmove⟩ := except_bind_eq_ok.mp hmove
        rcases copyFromSequence_ok hs hcopy with ⟨rfl, -⟩ | ⟨sent, rfl, hsends⟩
        · cases hmove
        · cases hmove
          exact .send hempty hsends (hhead (hs.sends hsends))
      · cases hmove
        exact hhead hs

end Discard

/-! ## 4. Contents -/

/-- The bytes of the buffer, the sent ones first. -/
def contents (s : TcpTxBuffer) : List Byte := bytesOf s.sentList ++ bytesOf s.appList

theorem Layout.length_contents (hs : Layout s) : (contents s).length = s.size.toNat := by
  rw [contents, length_append, hs.size]

theorem Sends.contents_eq (h : Sends s numBytes seq now s' item) : contents s' = contents s := by
  cases h with
  | @new item rest retrans nodes hseq hedit hnodes hlen hretrans =>
    show bytesOf (s.sentList ++ [item.sent seq nodes now]) ++ bytesOf rest = _
    rw [contents, ← hedit.bytesOf_eq, bytesOf_append, bytesOf_cons, bytesOf_cons, bytesOf_nil,
      append_nil, append_assoc]
    rfl
  | @again item before after retrans nodes hedit hnodes hplace hlen hsacked =>
    show bytesOf (before ++ item.sentAgain now :: after) ++ bytesOf s.appList = _
    rw [contents, ← hedit.bytesOf_eq, bytesOf_append, bytesOf_append, bytesOf_cons, bytesOf_cons]
    rfl

theorem Sends.firstByteSeq_eq (h : Sends s numBytes seq now s' item) :
    s'.firstByteSeq = s.firstByteSeq := by
  cases h with
  | new => rfl
  | again => rfl

section

variable (h : Drops now s offset s') (hs : Layout s)
include h hs

theorem Drops.layout : Layout s' := by
  induction h with
  | done => exact hs
  | send _ hsends _ ih => exact ih (hs.sends hsends)
  | whole hlist _ _ ih => exact ih ((hs.withoutHead hlist).uncounted _)
  | part hlist _ hlt => exact (hs.withShorterHead hlist hlt).uncounted _

theorem Drops.contents_eq : contents s' = (contents s).drop offset.toNat := by
  induction h with
  | @done s offset h =>
    cases h with
    | inl hsize =>
      have hlen := hs.length_contents
      rw [hsize] at hlen
      rw [eq_nil_of_length_eq_zero hlen, drop_nil]
    | inr hoffset =>
      rw [hoffset]
      rfl
  | send _ hsends _ ih => rw [ih (hs.sends hsends), hsends.contents_eq]
  | @whole s s' offset item items hlist hle _ ih =>
    obtain ⟨-, hitem, -⟩ := hs.length_head hlist
    have hle' : item.packet.length ≤ offset.toNat := hitem ▸ le_def.mp hle
    have hcontents : contents s =
        item.packet ++ contents (uncounted (withoutHead s item items) item item.size) := by
      rw [contents, hlist, bytesOf_cons, append_assoc]
      rfl
    rw [ih ((hs.withoutHead hlist).uncounted _), hcontents, drop_append,
      drop_of_length_le hle', toNat_sub_of_le hle, hitem, nil_append]
  | @part s offset item items hlist _ hlt =>
    obtain ⟨-, hitem, -⟩ := hs.length_head hlist
    have hle : offset.toNat ≤ item.packet.length := hitem ▸ le_of_lt (lt_def.mp hlt)
    rw [contents, contents, hlist, bytesOf_cons, append_assoc,
      drop_append_of_le_length hle, ← append_assoc]
    rfl

theorem Drops.firstByteSeq_eq : s'.firstByteSeq =
      s.firstByteSeq + ofNat 32 (min offset.toNat (contents s).length) := by
  induction h with
  | @done s offset h =>
    have hzero : min offset.toNat (contents s).length = 0 := by
      cases h with
      | inl hsize => rw [hs.length_contents, hsize]; exact Nat.min_zero _
      | inr hoffset => rw [hoffset]; exact Nat.zero_min _
    rw [hzero]
    exact (SequenceNumber32.add_zero _).symm
  | send _ hsends _ ih => rw [ih (hs.sends hsends), hsends.contents_eq, hsends.firstByteSeq_eq]
  | @whole s s' offset item items hlist hle _ ih =>
    obtain ⟨-, hitem, -⟩ := hs.length_head hlist
    have hle' : item.packet.length ≤ offset.toNat := hitem ▸ le_def.mp hle
    have hlen : (contents s).length =
        item.packet.length + (contents (uncounted (withoutHead s item items) item item.size)).length := by
      rw [contents, hlist, bytesOf_cons, append_assoc, length_append]
      rfl
    rw [ih ((hs.withoutHead hlist).uncounted _), toNat_sub_of_le hle, hitem, hlen]
    show s.firstByteSeq + item.size + _ = _
    rw [add_size_add]
    congr 2
    omega
  | @part s offset item items hlist _ hlt =>
    obtain ⟨-, hitem, -⟩ := hs.length_head hlist
    have hle : offset.toNat ≤ (contents s).length := by
      rw [contents, hlist, bytesOf_cons, append_assoc, length_append]
      exact Nat.le_add_right_of_le (hitem ▸ le_of_lt (lt_def.mp hlt))
    rw [min_eq_left hle, ofNat_toNat, setWidth_eq]
    rfl

end

/-! ## 5. The operations -/

/-- Only flags, counts and the highest sacked item are different. -/
structure Relabelled (s s' : TcpTxBuffer) : Prop where
  sentList : segments s'.sentList = segments s.sentList
  appList : s'.appList = s.appList
  size : s'.size = s.size
  sentSize : s'.sentSize = s.sentSize
  firstByteSeq : s'.firstByteSeq = s.firstByteSeq
  maxBuffer : s'.maxBuffer = s.maxBuffer

theorem Relabelled.refl (s : TcpTxBuffer) : Relabelled s s := ⟨rfl, rfl, rfl, rfl, rfl, rfl⟩

theorem Relabelled.trans (h : Relabelled s s') (h' : Relabelled s' s'') : Relabelled s s'' where
  sentList := h'.sentList.trans h.sentList
  appList := h'.appList.trans h.appList
  size := h'.size.trans h.size
  sentSize := h'.sentSize.trans h.sentSize
  firstByteSeq := h'.firstByteSeq.trans h.firstByteSeq
  maxBuffer := h'.maxBuffer.trans h.maxBuffer

theorem Relabelled.layout (h : Relabelled s s') (hs : Layout s) : Layout s' :=
  hs.of_segments h.sentList h.appList h.size h.sentSize h.firstByteSeq h.maxBuffer

theorem Relabelled.contents_eq (h : Relabelled s s') : contents s' = contents s := by
  rw [contents, bytesOf_eq_segments, h.sentList, h.appList, ← bytesOf_eq_segments, contents]

theorem segments_map {f : TcpTxItem → TcpTxItem} {items' : List TcpTxItem}
    (h : items' = items.map f)
    (hf : ∀ item, (f item).startSeq = item.startSeq ∧ (f item).packet = item.packet) :
    segments items' = segments items := by
  rw [h, segments, map_map, segments]
  refine map_congr_left fun item _ => ?_
  show ((f item).startSeq, (f item).packet) = _
  rw [(hf item).1, (hf item).2]

theorem segments_cons (item : TcpTxItem) (items : List TcpTxItem) :
    segments (item :: items) = (item.startSeq, item.packet) :: segments items := rfl

theorem segments_append (items items' : List TcpTxItem) :
    segments (items ++ items') = segments items ++ segments items' := map_append

section Operations

variable {s s' : TcpTxBuffer}

/-- The items before and behind the one that `AddRenoSack` marks. -/
theorem addRenoSack_ok (h : s.addRenoSack = .ok s') : s' = s ∨
    ∃ head before item after, s.sentList = head :: (before ++ item :: after) ∧
      item.sacked = false ∧ (∀ item ∈ before, item.sacked = true) ∧
      s' = { s with
        sentList := head :: (before ++ { item with sacked := true } :: after)
        sackedOut := s.sackedOut + item.size
        highestSack := (some item.node, item.startSeq) } := by
  unfold addRenoSack at h
  split at h
  · cases h
  · next head rest hlist =>
    split at h
    · cases h
    · split at h
      · cases h
        exact .inl rfl
      · next item after hdrop =>
        cases h
        have hsplit : rest = rest.takeWhile (·.sacked) ++ item :: after := by
          rw [← hdrop, takeWhile_append_dropWhile]
        have hitem : item.sacked = false := by
          have := head_dropWhile_not TcpTxItem.sacked (by rw [hdrop]; exact cons_ne_nil _ _)
          simpa [hdrop] using this
        refine .inr ⟨head, _, item, after, ?_, hitem, fun _ hmem => mem_takeWhile_imp hmem, rfl⟩
        rw [hlist, ← hsplit]

theorem addRenoSack_relabelled (h : s.addRenoSack = .ok s') : Relabelled s s' := by
  rcases addRenoSack_ok h with rfl | ⟨head, before, item, after, hlist, -, -, rfl⟩
  · exact .refl _
  · refine ⟨?_, rfl, rfl, rfl, rfl, rfl⟩
    rw [hlist, segments_cons, segments_cons, segments_append, segments_append, segments_cons,
      segments_cons]

theorem markHeadAsLost_relabelled : Relabelled s s.markHeadAsLost := by
  unfold markHeadAsLost
  split
  · exact .refl _
  · next hlist =>
    refine ⟨?_, rfl, rfl, rfl, rfl, rfl⟩
    rw [hlist]
    rfl

theorem settleHead_relabelled (h : s.settleHead = .ok s') : Relabelled s s' := by
  unfold settleHead at h
  split at h
  · cases h
    exact .refl _
  · next head rest hlist =>
    split at h
    · split at h
      · cases h
      · obtain ⟨s₁, hreno, h⟩ := except_bind_eq_ok.mp h
        cases h
        have hhead : Relabelled s { s with
            sentList := { head with sacked := false } :: rest
            sackedOut := s.sackedOut - head.size } :=
          ⟨by rw [hlist]; rfl, rfl, rfl, rfl, rfl, rfl⟩
        exact hhead.trans ((addRenoSack_relabelled hreno).trans markHeadAsLost_relabelled)
    · cases h
      exact .refl _

/-- The buffer after the loop of `DiscardUpTo`, which may have run out of data. -/
def acknowledged (s : TcpTxBuffer) (seq : SequenceNumber32) : TcpTxBuffer :=
  { s with firstByteSeq := if s.size = 0 then seq else s.firstByteSeq }

/-- The number is reached, by the loop or because there is no more data. -/
theorem Drops.acknowledged {seq : SequenceNumber32} {now : Int}
    (h : Drops now s (seq - s.firstByteSeq) s') (hs : Layout s) :
    (acknowledged s' seq).firstByteSeq = seq := by
  show (if s'.size = 0 then seq else s'.firstByteSeq) = seq
  split
  · rfl
  · next hleft =>
    have hlen := congrArg List.length (h.contents_eq hs)
    rw [(h.layout hs).length_contents, length_drop] at hlen
    have hpos := toNat_pos_of_ne_zero hleft
    rw [h.firstByteSeq_eq hs, min_eq_left (by omega), SequenceNumber32.add_ofNat_toNat,
      SequenceNumber32.add_sub]

/-- The highest sacked item is forgotten when it is not behind the first byte. -/
def forgetSack (s : TcpTxBuffer) : TcpTxBuffer :=
  { s with highestSack := if s.highestSack.2.le s.firstByteSeq then noSack else s.highestSack }

theorem discardUpTo_ok (hs : Layout s) {seq : SequenceNumber32} {now : Int}
    (h : s.discardUpTo seq now = .ok s') : (s.firstByteSeq.ge seq = true ∧ s' = s) ∨
    ∃ s₁ s₂, s.firstByteSeq.ge seq = false ∧ Drops now s (seq - s.firstByteSeq) s₁ ∧
      (acknowledged s₁ seq).settleHead = .ok s₂ ∧ s' = forgetSack s₂ ∧
      ∀ head ∈ s₂.sentList.head?, head.startSeq = seq := by
  unfold discardUpTo at h
  split at h
  · next hge =>
    cases h
    exact .inl ⟨hge, rfl⟩
  · next hge =>
    obtain ⟨s₁, hdrops, h⟩ := except_bind_eq_ok.mp h
    obtain ⟨s₂, hsettle, h⟩ := except_bind_eq_ok.mp h
    dsimp only at h
    split at h
    · cases h
    · next hhead =>
      have hack : (if s₁.size = 0 then { s₁ with firstByteSeq := seq } else s₁) =
          acknowledged s₁ seq := by
        unfold acknowledged
        split <;> rfl
      rw [hack] at hsettle
      have hforget : (if s₂.highestSack.2.le s₂.firstByteSeq then
          { s₂ with highestSack := noSack } else s₂) = forgetSack s₂ := by
        unfold forgetSack
        split <;> rfl
      rw [hforget] at h
      refine .inr ⟨s₁, s₂, Bool.eq_false_iff.mpr hge, discard_ok hs hdrops, hsettle, ?_, ?_⟩
      · split at h
        · cases h
          rfl
        · cases h
      · intro head hmem
        by_contra hne
        refine hhead ?_
        rw [Option.mem_def.mp hmem]
        exact decide_eq_true hne

theorem sackItems_relabelled {block : SackBlock} {items items' : List TcpTxItem}
    {start : SequenceNumber32} {bytes' : BitVec 32}
    (h : sackItems block start items (s, bytes) = .ok (items', s', bytes')) :
    segments items' = segments items ∧ s'.sentList = s.sentList ∧ Relabelled s s' := by
  induction items generalizing start s bytes items' with
  | nil =>
    cases h
    exact ⟨rfl, rfl, .refl _⟩
  | cons item rest ih =>
    unfold sackItems at h
    split at h
    · split at h
      · split at h
        · cases h
        · obtain ⟨⟨rest', result⟩, hrest, heq⟩ := except_bind_eq_ok.mp h
          cases heq
          obtain ⟨hsegments, hlist, hsame⟩ := ih hrest
          exact ⟨congrArg (_ :: ·) hsegments, hlist, hsame⟩
      · obtain ⟨⟨rest', result⟩, hrest, heq⟩ := except_bind_eq_ok.mp h
        cases heq
        obtain ⟨hsegments, hlist, hsame⟩ := ih hrest
        exact ⟨congrArg (_ :: ·) hsegments, hlist,
          ⟨hsame.sentList, hsame.appList, hsame.size, hsame.sentSize, hsame.firstByteSeq,
            hsame.maxBuffer⟩⟩
    · split at h
      · cases h
        exact ⟨rfl, rfl, .refl _⟩
      · obtain ⟨⟨rest', result⟩, hrest, heq⟩ := except_bind_eq_ok.mp h
        cases heq
        obtain ⟨hsegments, hlist, hsame⟩ := ih hrest
        exact ⟨congrArg (_ :: ·) hsegments, hlist, hsame⟩

theorem updateBlocks_relabelled {blocks : List SackBlock} {bytes' : BitVec 32} {outside : Bool}
    (h : updateBlocks blocks (s, bytes) = .ok ((s', bytes'), outside)) : Relabelled s s' := by
  induction blocks generalizing s bytes with
  | nil =>
    cases h
    exact .refl _
  | cons block blocks ih =>
    unfold updateBlocks at h
    split at h
    · cases h
      exact .refl _
    · obtain ⟨⟨items, s₁, bytes₁⟩, hitems, h⟩ := except_bind_eq_ok.mp h
      obtain ⟨hsegments, hlist, hsame⟩ := sackItems_relabelled hitems
      have hput : Relabelled s { s₁ with sentList := items } :=
        ⟨hsegments, hsame.appList, hsame.size, hsame.sentSize, hsame.firstByteSeq, hsame.maxBuffer⟩
      exact hput.trans (ih h)

theorem upTo_ok {node : Nat} {items walked above : List TcpTxItem}
    (h : upTo node items = some (walked, above)) : items = walked ++ above ∧
      ∃ below item, walked = below ++ [item] ∧ item.node = node ∧
        ∀ item ∈ below, item.node ≠ node := by
  induction items generalizing walked with
  | nil => cases h
  | cons item rest ih =>
    unfold upTo at h
    split at h
    · next hnode =>
      cases h
      exact ⟨rfl, [], item, rfl, hnode, forall_mem_nil _⟩
    · next hnode =>
      obtain ⟨⟨walked', above'⟩, hrest, heq⟩ := Option.map_eq_some_iff.mp h
      cases heq
      obtain ⟨rfl, below, last, rfl, hlast, hbelow⟩ := ih hrest
      exact ⟨rfl, item :: below, last, rfl, hlast, forall_mem_cons.mpr ⟨hnode, hbelow⟩⟩

/-- An item that is not sacked is lost when enough are sacked behind it. -/
theorem markLost_eq (thresh : BitVec 32) (item : TcpTxItem)
    (counted : List TcpTxItem × Nat × BitVec 32) : markLost thresh item counted =
      ({ item with lost := item.lost || (!item.sacked && thresh.toNat ≤ counted.2.1) } :: counted.1,
        if item.sacked then counted.2.1 + 1 else counted.2.1,
        if !item.lost && (!item.sacked && thresh.toNat ≤ counted.2.1) then counted.2.2 + item.size
        else counted.2.2) := by
  obtain ⟨items, sacked, lostOut⟩ := counted
  obtain ⟨node, startSeq, packet, lost, lastSent, sackedFlag, retrans⟩ := item
  unfold markLost
  cases sackedFlag with
  | true => simp
  | false =>
    cases lost with
    | true => simp
    | false =>
      cases hreached : decide (thresh.toNat ≤ sacked) with
      | true | false => simp [hreached]

theorem segments_foldr_markLost (thresh : BitVec 32) (items : List TcpTxItem)
    (lostOut : BitVec 32) :
    segments (items.foldr (markLost thresh) ([], 0, lostOut)).1 = segments items := by
  induction items with
  | nil => rfl
  | cons item items ih =>
    rw [foldr_cons, segments_cons, ← ih, markLost_eq]
    rfl

/-- The items that the loop goes down through, and the head. -/
theorem updateLostCount_ok (h : s.updateLostCount = .ok s') :
    ∃ node head walked above, s.highestSack.1 = some node ∧
      upTo node s.sentList = some (head :: walked, above) ∧
      let counted := walked.foldr (markLost s.dupAckThresh) ([], 0, s.lostOut)
      s' = { s with
        sentList := { head with lost := head.lost || s.dupAckThresh.toNat ≤ counted.2.1 } ::
            (counted.1 ++ above)
        lostOut := if s.dupAckThresh.toNat ≤ counted.2.1 && !head.lost then counted.2.2 + head.size
          else counted.2.2 } := by
  unfold updateLostCount at h
  split at h
  · next head walked above hwalk =>
    obtain ⟨node, hnode, hwalk⟩ := Option.bind_eq_some_iff.mp hwalk
    refine ⟨node, head, walked, above, hnode, hwalk, ?_⟩
    dsimp only at h ⊢
    split at h
    · next hlost =>
      cases h
      rw [if_pos hlost, (Bool.and_eq_true_iff.mp hlost).1, Bool.or_true]
    · next hlost =>
      cases h
      rw [if_neg hlost]
      rw [Bool.and_eq_true, Bool.not_eq_true', not_and, Bool.not_eq_false] at hlost
      have hhead : (head.lost || decide (s.dupAckThresh.toNat ≤
          (walked.foldr (markLost s.dupAckThresh) ([], 0, s.lostOut)).2.1)) = head.lost := by
        cases hreached : decide (s.dupAckThresh.toNat ≤
            (walked.foldr (markLost s.dupAckThresh) ([], 0, s.lostOut)).2.1) with
        | false => exact Bool.or_false _
        | true => rw [hlost hreached]; rfl
      rw [hhead]
  · cases h

theorem updateLostCount_relabelled (h : s.updateLostCount = .ok s') : Relabelled s s' := by
  obtain ⟨node, head, walked, above, -, hwalk, rfl⟩ := updateLostCount_ok h
  refine ⟨?_, rfl, rfl, rfl, rfl, rfl⟩
  rw [(upTo_ok hwalk).1, cons_append, segments_cons, segments_cons, segments_append,
    segments_append, segments_foldr_markLost]

theorem update_ok {list : List SackBlock} (h : s.update list = .ok (s', bytes)) :
    updateBlocks list (s, 0) = .ok ((s', bytes), true) ∨
    ∃ s₁, updateBlocks list (s, 0) = .ok ((s₁, bytes), false) ∧
      (bytes = 0 ∧ s' = s₁ ∨ bytes ≠ 0 ∧ s₁.updateLostCount = .ok s') ∧
      (∀ head ∈ s'.sentList.head?, head.sacked = false) ∧
      ¬s'.sentSize < s'.sackedOut + s'.lostOut := by
  obtain ⟨⟨⟨s₁, bytes₁⟩, outside⟩, hblocks, h⟩ := except_bind_eq_ok.mp h
  dsimp only at h
  split at h
  · next houtside =>
    cases h
    exact .inl (houtside ▸ hblocks)
  · next houtside =>
    obtain ⟨s₂, hcount, h⟩ := except_bind_eq_ok.mp h
    split at h
    · cases h
    · next hchecks =>
      cases h
      rw [Bool.or_eq_true, not_or, decide_eq_true_eq] at hchecks
      refine .inr ⟨s₁, Bool.eq_false_iff.mpr houtside ▸ hblocks, ?_, ?_, hchecks.2⟩
      · unfold recountLost at hcount
        split at hcount
        · next hpos =>
          split at hcount
          · cases hcount
          · exact .inr ⟨fun h0 => BitVec.lt_irrefl _ (h0 ▸ hpos), hcount⟩
        · next hpos =>
          cases hcount
          exact .inl ⟨BitVec.le_zero_iff.mp (BitVec.not_lt.mp hpos), rfl⟩
      · intro head hmem
        have hany := hchecks.1
        rw [Option.mem_def.mp hmem] at hany
        exact Bool.eq_false_iff.mpr hany

theorem update_relabelled {list : List SackBlock} (h : s.update list = .ok (s', bytes)) :
    Relabelled s s' := by
  rcases update_ok h with hblocks | ⟨s₁, hblocks, hcount, -⟩
  · exact updateBlocks_relabelled hblocks
  · refine (updateBlocks_relabelled hblocks).trans ?_
    rcases hcount with ⟨-, rfl⟩ | ⟨-, hcount⟩
    · exact .refl _
    · exact updateLostCount_relabelled hcount

theorem setSentListLost_ok {resetSack : Bool} (h : s.setSentListLost resetSack = .ok s') :
    s' = s.loseSentList resetSack := by
  unfold setSentListLost at h
  dsimp only at h
  split at h
  · cases h
  · cases h
    rfl

theorem loseSentList_relabelled (resetSack : Bool) : Relabelled s (s.loseSentList resetSack) := by
  cases resetSack with
  | true | false => exact ⟨segments_map rfl (fun _ => ⟨rfl, rfl⟩), rfl, rfl, rfl, rfl, rfl⟩

theorem resetRenoSack_relabelled : Relabelled s s.resetRenoSack :=
  ⟨segments_map rfl (fun _ => ⟨rfl, rfl⟩), rfl, rfl, rfl, rfl, rfl⟩

theorem deleteRetransmittedFlagFromHead_relabelled :
    Relabelled s s.deleteRetransmittedFlagFromHead := by
  unfold deleteRetransmittedFlagFromHead
  split
  · exact .refl _
  · split
    · exact .refl _
    · next head rest hlist =>
      split
      · refine ⟨?_, rfl, rfl, rfl, rfl, rfl⟩
        rw [hlist]
        rfl
      · exact .refl _

theorem Layout.add (hs : Layout s) (p : Packet) : Layout (s.add p).1 := by
  unfold TcpTxBuffer.add
  dsimp only
  split
  · next hroom =>
    split
    · next hpos =>
      have hsize : (ofNat 32 p.bytes.length).toNat = p.bytes.length := by
        rw [BitVec.toNat_ofNat, Nat.mod_eq_of_lt p.bounded]
      have hle := le_def.mp hroom
      rw [hsize, available, toNat_sub_of_le (le_def.mpr hs.room)] at hle
      have hmax := hs.room
      have hlt := s.maxBuffer.isLt
      have hsum : (s.size + ofNat 32 p.bytes.length).toNat = s.size.toNat + p.bytes.length := by
        rw [toNat_add, hsize, Nat.mod_eq_of_lt (by omega)]
      constructor
      case nonempty_sent => exact hs.nonempty_sent
      case nonempty_app =>
        refine nonempty_append.mpr ⟨hs.nonempty_app, nonempty_cons.mpr ⟨?_, forall_mem_nil _⟩⟩
        exact hsize ▸ lt_def.mp hpos
      case placed => exact hs.placed
      case size =>
        show (s.size + ofNat 32 p.bytes.length).toNat = _
        rw [hsum, hs.size, bytesOf_append, length_append, bytesOf_cons, bytesOf_nil,
          append_nil, add_assoc]
      case sentSize => exact hs.sentSize
      case room =>
        show (s.size + ofNat 32 p.bytes.length).toNat ≤ s.maxBuffer.toNat
        omega
    · exact hs
  · exact hs

theorem Layout.resetSentList (hs : Layout s) : Layout s.resetSentList := by
  have hsegments : segments (s.sentList.map fun item =>
      { item with retrans := false, sacked := false, lost := false }) = segments s.sentList :=
    segments_map rfl fun _ => ⟨rfl, rfl⟩
  constructor
  case nonempty_sent => exact forall_mem_nil _
  case nonempty_app =>
    refine nonempty_append.mpr ⟨?_, hs.nonempty_app⟩
    rw [nonempty_iff_segments, hsegments, ← nonempty_iff_segments]
    exact hs.nonempty_sent
  case placed => trivial
  case size =>
    show s.size.toNat = 0 + (bytesOf (_ ++ s.appList)).length
    rw [bytesOf_append, length_append, bytesOf_eq_segments, hsegments, ← bytesOf_eq_segments,
      hs.size, zero_add]
  case sentSize => rfl
  case room => exact hs.room

/-- The last segment that was sent, when there is one. -/
theorem resetLastSegmentSent_eq : (s.sentList = [] ∧ s.resetLastSegmentSent = s) ∨
    ∃ items item, s.sentList = items ++ [item] ∧ s.resetLastSegmentSent = { s with
      sentList := items
      sentSize := s.sentSize - item.size
      retrans := if item.retrans then s.retrans - item.size else s.retrans
      appList := item :: s.appList } := by
  unfold resetLastSegmentSent
  split
  · next hlast => exact .inl ⟨getLast?_eq_none_iff.mp hlast, rfl⟩
  · next item hlast =>
    obtain ⟨items, hlist⟩ := getLast?_eq_some_iff.mp hlast
    refine .inr ⟨items, item, hlist, ?_⟩
    rw [hlist, dropLast_concat]

theorem Layout.resetLastSegmentSent (hs : Layout s) : Layout s.resetLastSegmentSent := by
  rcases resetLastSegmentSent_eq (s := s) with ⟨-, heq⟩ | ⟨items, item, hlist, heq⟩
  · rw [heq]
    exact hs
  · have hne := hs.nonempty_sent
    have hplaced := hs.placed
    have hsent := hs.sentSize
    have hsize := hs.size
    have hlt := hs.length_lt
    rw [hlist] at hne hplaced
    rw [hlist, bytesOf_append, length_append, bytesOf_cons, bytesOf_nil, append_nil]
      at hsent hsize hlt
    obtain ⟨hitems, hitem⟩ := nonempty_append.mp hne
    have hitemSize : item.size.toNat = item.packet.length := toNat_size (by omega)
    rw [heq]
    constructor
    case nonempty_sent => exact hitems
    case nonempty_app => exact nonempty_cons.mpr ⟨(nonempty_cons.mp hitem).1, hs.nonempty_app⟩
    case placed => exact (placed_append.mp hplaced).1
    case size =>
      show s.size.toNat = (bytesOf items).length + (bytesOf (item :: s.appList)).length
      rw [hsize, bytesOf_cons, length_append, add_assoc]
    case sentSize =>
      show (s.sentSize - item.size).toNat = (bytesOf items).length
      rw [toNat_sub_of_le (le_def.mpr (by omega))]
      omega
    case room => exact hs.room

theorem Layout.acknowledged (hs : Layout s) (seq : SequenceNumber32) :
    Layout (acknowledged s seq) := by
  unfold Tcp.acknowledged
  cases decEq s.size 0 with
  | isTrue hempty =>
    have hsize := hs.size
    rw [hempty] at hsize
    have hnil : s.sentList = [] :=
      eq_nil_of_length_bytesOf hs.nonempty_sent (Nat.eq_zero_of_add_eq_zero_right hsize.symm)
    exact { hs with placed := by rw [hnil]; trivial }
  | isFalse hne =>
    rw [if_neg hne]
    exact hs

theorem Layout.discardUpTo (hs : Layout s) {seq : SequenceNumber32} {now : Int}
    (h : s.discardUpTo seq now = .ok s') : Layout s' := by
  rcases discardUpTo_ok hs h with ⟨-, rfl⟩ | ⟨s₁, s₂, -, hdrops, hsettle, rfl, -⟩
  · exact hs
  · have hs₂ := (settleHead_relabelled hsettle).layout ((hdrops.layout hs).acknowledged seq)
    exact hs₂.of_segments rfl rfl rfl rfl rfl rfl

/-- The operations that only look. -/
def Looks : Operation → Prop
  | .sizeFromSequence _ | .isLost _ | .isRetransmittedDataAcked _ => True
  | .isHeadRetransmitted | .nextSeg _ _ | .bytesInFlight => True
  | _ => False

/-- What an operation makes of a buffer, and what it returns. -/
inductive Performs (s : TcpTxBuffer) : Operation → TcpTxBuffer → Result → Prop
  | setHeadSequence (seq : SequenceNumber32) : s.sentList = [] → Performs s (.setHeadSequence seq)
      { s with firstByteSeq := seq, highestSack := noSack } .nothing
  | add (p : Packet) : Performs s (.add p) (s.add p).1 (.flag (s.add p).2)
  | sendsNothing (numBytes : BitVec 32) (seq : SequenceNumber32) (now : Int) :
      Performs s (.copyFromSequence numBytes seq now) s (.item none)
  | sends {numBytes : BitVec 32} {seq : SequenceNumber32} {now : Int} {s' : TcpTxBuffer}
      {item : TcpTxItem} : Sends s numBytes seq now s' item →
      Performs s (.copyFromSequence numBytes seq now) s' (.item (some item))
  | discardUpTo {seq : SequenceNumber32} {now : Int} {s' : TcpTxBuffer} :
      s.discardUpTo seq now = .ok s' → Performs s (.discardUpTo seq now) s' .nothing
  | update {list : List SackBlock} {s' : TcpTxBuffer} {bytes : BitVec 32} :
      s.update list = .ok (s', bytes) → Performs s (.update list) s' (.bytes bytes)
  | setSentListLost (resetSack : Bool) :
      Performs s (.setSentListLost resetSack) (s.loseSentList resetSack) .nothing
  | resetSentList : Performs s .resetSentList s.resetSentList .nothing
  | resetLastSegmentSent : Performs s .resetLastSegmentSent s.resetLastSegmentSent .nothing
  | markHeadAsLost : Performs s .markHeadAsLost s.markHeadAsLost .nothing
  | addRenoSack {s' : TcpTxBuffer} : s.addRenoSack = .ok s' → Performs s .addRenoSack s' .nothing
  | resetRenoSack : Performs s .resetRenoSack s.resetRenoSack .nothing
  | deleteRetransmittedFlagFromHead : Performs s .deleteRetransmittedFlagFromHead
      s.deleteRetransmittedFlagFromHead .nothing
  | looks {operation : Operation} {result : Result} :
      Looks operation → Performs s operation s result

theorem Layout.performs (hs : Layout s) {operation : Operation} {result : Result}
    (h : s.perform operation = .ok (s', result)) : Performs s operation s' result := by
  cases operation with
  | setHeadSequence seq =>
    obtain ⟨s₁, hset, heq⟩ := except_map_eq_ok.mp h
    cases heq
    unfold TcpTxBuffer.setHeadSequence at hset
    split at hset
    · cases hset
    · next hnil =>
      cases hset
      exact .setHeadSequence seq (not_not.mp hnil)
  | copyFromSequence numBytes seq now =>
    obtain ⟨⟨s₁, item⟩, hcopy, heq⟩ := except_map_eq_ok.mp h
    cases heq
    rcases copyFromSequence_ok hs hcopy with ⟨rfl, rfl⟩ | ⟨item, rfl, hsends⟩
    · exact .sendsNothing numBytes seq now
    · exact .sends hsends
  | discardUpTo seq now =>
    obtain ⟨s₁, hdiscard, heq⟩ := except_map_eq_ok.mp h
    cases heq
    exact .discardUpTo hdiscard
  | update list =>
    obtain ⟨⟨s₁, bytes⟩, hupdate, heq⟩ := except_map_eq_ok.mp h
    cases heq
    exact .update hupdate
  | setSentListLost resetSack =>
    obtain ⟨s₁, hset, heq⟩ := except_map_eq_ok.mp h
    cases heq
    cases setSentListLost_ok hset
    exact .setSentListLost resetSack
  | addRenoSack =>
    obtain ⟨s₁, hadd, heq⟩ := except_map_eq_ok.mp h
    cases heq
    exact .addRenoSack hadd
  | bytesInFlight =>
    obtain ⟨bytes, -, heq⟩ := except_map_eq_ok.mp h
    cases heq
    exact .looks trivial
  | add | resetSentList | resetLastSegmentSent | markHeadAsLost | resetRenoSack
  | deleteRetransmittedFlagFromHead =>
    cases h
    constructor
  | sizeFromSequence | isLost | isRetransmittedDataAcked | isHeadRetransmitted | nextSeg =>
    cases h
    exact .looks trivial

theorem Layout.perform (hs : Layout s) {operation : Operation} {result : Result}
    (h : s.perform operation = .ok (s', result)) : Layout s' := by
  cases hs.performs h with
  | setHeadSequence seq hnil => exact { hs with placed := by rw [hnil]; trivial }
  | add p => exact hs.add p
  | sendsNothing => exact hs
  | sends hsends => exact hs.sends hsends
  | discardUpTo hdiscard => exact hs.discardUpTo hdiscard
  | update hupdate => exact (update_relabelled hupdate).layout hs
  | setSentListLost resetSack => exact (loseSentList_relabelled resetSack).layout hs
  | resetSentList => exact hs.resetSentList
  | resetLastSegmentSent => exact hs.resetLastSegmentSent
  | markHeadAsLost => exact markHeadAsLost_relabelled.layout hs
  | addRenoSack hadd => exact (addRenoSack_relabelled hadd).layout hs
  | resetRenoSack => exact resetRenoSack_relabelled.layout hs
  | deleteRetransmittedFlagFromHead => exact deleteRetransmittedFlagFromHead_relabelled.layout hs
  | looks => exact hs

theorem Layout.step (hs : Layout s) {operation : Operation} (h : s.step operation = .ok s') :
    Layout s' := by
  obtain ⟨⟨s₁, result⟩, hperform, heq⟩ := except_map_eq_ok.mp h
  cases heq
  exact hs.perform hperform

/-! ## 6. Unsent items -/

def Unflagged (item : TcpTxItem) : Prop :=
  item.sacked = false ∧ item.lost = false ∧ item.retrans = false

/-- The items that are not sent have no flags. -/
def Clean (s : TcpTxBuffer) : Prop := ∀ item ∈ s.appList, Unflagged item

/-- The last segment has no flags when it is put back. -/
def PutBackSafe (s : TcpTxBuffer) : Operation → Prop
  | .resetLastSegmentSent => ∀ item ∈ s.sentList.getLast?, Unflagged item
  | _ => True

theorem Reshape.unflagged {items items' : List TcpTxItem} {retrans retrans' : BitVec 32}
    (h : Reshape items retrans items' retrans') (hitems : ∀ item ∈ items, Unflagged item) :
    ∀ item ∈ items', Unflagged item := by
  have hflags := h.flags (P := fun sacked lost => sacked = false ∧ lost = false)
    fun item hitem => ⟨(hitems item hitem).1, (hitems item hitem).2.1⟩
  have hretrans := h.not_retrans fun item hitem => (hitems item hitem).2.2
  intro item hitem
  exact ⟨(hflags item hitem).1, (hflags item hitem).2, hretrans item hitem⟩

theorem Clean.sends (hc : Clean s) {numBytes : BitVec 32} {seq : SequenceNumber32} {now : Int}
    {item : TcpTxItem} (h : Sends s numBytes seq now s' item) : Clean s' := by
  cases h with
  | new item hseq hedit => exact (forall_mem_cons.mp (hedit.unflagged hc)).2
  | again => exact hc

theorem Drops.clean {now : Int} {offset : BitVec 32} (h : Drops now s offset s')
    (hc : Clean s) : Clean s' := by
  induction h with
  | done => exact hc
  | send _ hsends _ ih => exact ih (hc.sends hsends)
  | whole _ _ _ ih => exact ih hc
  | part => exact hc

theorem Relabelled.clean (h : Relabelled s s') (hc : Clean s) : Clean s' := by
  unfold Clean
  rw [h.appList]
  exact hc

theorem Clean.step (hc : Clean s) (hs : Layout s) {operation : Operation}
    (hsafe : PutBackSafe s operation) (hstep : s.step operation = .ok s') : Clean s' := by
  obtain ⟨⟨s₁, result⟩, h, heq⟩ := except_map_eq_ok.mp hstep
  cases heq
  cases hs.performs h with
  | setHeadSequence => exact hc
  | add p =>
    unfold TcpTxBuffer.add
    dsimp only
    split
    · split
      · exact forall_mem_append.mpr ⟨hc, forall_mem_singleton.mpr ⟨rfl, rfl, rfl⟩⟩
      · exact hc
    · exact hc
  | sendsNothing => exact hc
  | sends hsends => exact hc.sends hsends
  | discardUpTo hdiscard =>
    rcases discardUpTo_ok hs hdiscard with ⟨-, rfl⟩ | ⟨s₁, s₂, -, hdrops, hsettle, rfl, -⟩
    · exact hc
    · exact (settleHead_relabelled hsettle).clean (hdrops.clean hc)
  | update hupdate => exact (update_relabelled hupdate).clean hc
  | setSentListLost resetSack => exact (loseSentList_relabelled resetSack).clean hc
  | resetSentList =>
    exact forall_mem_append.mpr ⟨forall_mem_map.mpr fun _ _ => ⟨rfl, rfl, rfl⟩, hc⟩
  | resetLastSegmentSent =>
    show Clean s.resetLastSegmentSent
    rcases resetLastSegmentSent_eq (s := s) with ⟨-, heq⟩ | ⟨items, item, hlist, heq⟩
    · rw [heq]
      exact hc
    · rw [heq]
      exact forall_mem_cons.mpr ⟨hsafe item (by rw [hlist, getLast?_concat]; rfl), hc⟩
  | markHeadAsLost => exact markHeadAsLost_relabelled.clean hc
  | addRenoSack hadd => exact (addRenoSack_relabelled hadd).clean hc
  | resetRenoSack => exact resetRenoSack_relabelled.clean hc
  | deleteRetransmittedFlagFromHead => exact deleteRetransmittedFlagFromHead_relabelled.clean hc
  | looks => exact hc

end Operations

end MoeJit.Tcp
